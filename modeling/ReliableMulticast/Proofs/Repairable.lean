import Mathlib.Data.List.Sort
import ReliableMulticast.Proofs.History
import ReliableMulticast.Proofs.Slotwise

/-!
# Groups reported as repairable

A transmission group is reported when its slots keep as many parity packets as members are missing.
That is enough for an erasure code if no two of them are the same packet. Groups do not overlap
(`mem_groupNumbers_iff`), and the slots of a group keep different parity packets (`KeepsApart`) until
one is taken in that its group keeps already (`RepeatsParity`); no other operation does any harm.
-/

namespace ReliableMulticast

/-! ### Sorted parity -/

namespace ParityPacket

theorem insert_eq_orderedInsert (p : ParityPacket) (ps : List ParityPacket) :
    p.insert ps = ps.orderedInsert (fun p q => p.index.toNat ≤ q.index.toNat) p := by
  induction ps with
  | nil => rfl
  | cons q ps ih => rw [insert, List.orderedInsert_cons, ih]

theorem sort_eq_insertionSort (ps : List ParityPacket) :
    sort ps = ps.insertionSort fun p q => p.index.toNat ≤ q.index.toNat := by
  induction ps with
  | nil => rfl
  | cons p ps ih =>
    rw [List.insertionSort_cons, ← ih, ← insert_eq_orderedInsert, sort, List.foldr_cons, sort]

theorem perm_sort (ps : List ParityPacket) : (sort ps).Perm ps := by
  rw [sort_eq_insertionSort]
  exact List.perm_insertionSort _ ps

theorem pairwise_sort (ps : List ParityPacket) : (sort ps).Pairwise fun p q => p.index ≤ q.index := by
  have : Std.Total fun p q : ParityPacket => p.index.toNat ≤ q.index.toNat :=
    ⟨fun p q => Nat.le_total p.index.toNat q.index.toNat⟩
  have : IsTrans ParityPacket fun p q => p.index.toNat ≤ q.index.toNat :=
    ⟨fun _ _ _ => Nat.le_trans⟩
  rw [sort_eq_insertionSort]
  exact (List.pairwise_insertionSort _ ps).imp UInt32.le_iff_toNat_le.2

end ParityPacket

namespace Window

variable {w w' : Window} {notes : List Note} {x s : SeqNum} {p : Packet}

/-! ### Groups -/

theorem Sound.groupSize_dvd (h : w.Sound) : w.groupSize ∣ 4294967296 := by
  obtain ⟨hpower, hle⟩ := h.groupSize
  rw [Nat.one_shiftLeft] at hpower
  have hexp : w.groupSize.log2 ≤ 7 := by
    rw [hpower] at hle
    exact (Nat.pow_le_pow_iff_right (by decide)).1 (show 2 ^ _ ≤ 2 ^ 7 from hle)
  rw [hpower]
  exact Nat.pow_dvd_pow 2 (show _ ≤ 32 by omega)

theorem toNat_groupFirst (w : Window) (s : SeqNum) :
    (w.groupFirst s).raw.toNat = w.groupSize * (s.raw.toNat / w.groupSize) := by
  have hs := s.toNat_lt
  have hsplit := Nat.div_add_mod s.raw.toNat w.groupSize
  rw [groupFirst, groupIndex, SeqNum.toNat_sub]
  omega

/-- A number belongs to a group if it is in the same division of the number space. -/
theorem mem_groupNumbers_iff (h : w.Sound) :
    x ∈ w.groupNumbers s ↔ x.raw.toNat / w.groupSize = s.raw.toNat / w.groupSize := by
  obtain ⟨m, hm⟩ := h.groupSize_dvd
  have hpos := h.groupSize_pos
  have hs := s.toNat_lt
  have hfits : w.groupSize * (s.raw.toNat / w.groupSize) + w.groupSize ≤ 4294967296 := by
    rw [← Nat.mul_succ, hm]
    exact Nat.mul_le_mul_left _ (Nat.div_lt_of_lt_mul (hm ▸ hs))
  have hmember : ∀ k, k < w.groupSize →
      (w.groupFirst s + k).raw.toNat = w.groupSize * (s.raw.toNat / w.groupSize) + k := by
    intro k hk
    rw [SeqNum.toNat_add, toNat_groupFirst, Nat.mod_eq_of_lt (by omega)]
  rw [groupNumbers, SeqNum.mem_run]
  constructor
  · rintro ⟨k, hk, rfl⟩
    rw [hmember k hk, Nat.mul_add_div hpos, Nat.div_eq_of_lt hk, Nat.add_zero]
  · intro hx
    refine ⟨x.raw.toNat % w.groupSize, Nat.mod_lt _ hpos, SeqNum.ext_toNat ?_⟩
    rw [hmember _ (Nat.mod_lt _ hpos), ← hx, Nat.div_add_mod]

/-! ### Parity in the slots -/

/-- The parity packet that the slot of a number keeps. -/
def parityAt? (w : Window) (x : SeqNum) : Option ParityPacket :=
  (w.slots.get? x).bind Slot.parity

/-- The group of a parity packet keeps one of its index. -/
def keepsParity (w : Window) (p : Packet) : Bool :=
  (w.groupNumbers p.sequence).any fun y =>
    (w.parityAt? y).any (·.index = UInt32.ofNat (w.groupIndex p.sequence))

/-- The slots of one group keep different parity packets. -/
def KeepsApart (w : Window) : Prop :=
  ∀ s, ∀ x ∈ w.groupNumbers s, ∀ y ∈ w.groupNumbers s, x ≠ y →
    ∀ q ∈ w.parityAt? x, ∀ r ∈ w.parityAt? y, q.index ≠ r.index

theorem keepsParity_iff : w.keepsParity p ↔ ∃ y ∈ w.groupNumbers p.sequence,
    ∃ q ∈ w.parityAt? y, q.index = UInt32.ofNat (w.groupIndex p.sequence) := by
  simp [keepsParity, Option.any_eq_true]

theorem keepsApart_of_empty (empty : w.slots.size = 0) : w.KeepsApart := by
  intro s x _ y _ _ q hq
  simp [parityAt?, get?_of_empty empty] at hq

/-- A slot keeps the parity packet that it kept, or the one that the move tells of. -/
theorem Move.parityAt?_cases (hm : w.Move notes w') (h : w.Sound) {q : ParityPacket}
    (hq : q ∈ w'.parityAt? x) :
    q ∈ w.parityAt? x ∨ ∃ p, notes = [.kept p] ∧ x ∈ w.groupNumbers p.sequence ∧
      q = ⟨UInt32.ofNat (w.groupIndex p.sequence), p.payload⟩ ∧
      ∀ y, y ≠ x → w'.parityAt? y = w.parityAt? y := by
  obtain ⟨new, hs, hq⟩ := Option.bind_eq_some_iff.1 hq
  have there : ∀ {old : Slot}, w.slots.get? x = some old → old.parity = some q →
      q ∈ w.parityAt? x := fun hold hparity => Option.bind_eq_some_iff.2 ⟨_, hold, hparity⟩
  rcases hm.slot_cases h hs with harises | ⟨old, hold, hturns⟩
  · cases harises <;> cases hq
  · cases hturns with
    | same => exact .inl (there hold hq)
    | fill p fromParity =>
      cases fromParity with
      | true => cases hq
      | false => exact .inl (there hold hq)
    | wait _ waits => exact .inl (there hold (waits.parity ▸ hq))
    | keep p _ _ member alone =>
      obtain rfl := Option.some.inj hq
      refine .inr ⟨p, rfl, member, rfl, fun y hy => ?_⟩
      rw [parityAt?, alone y hy, parityAt?]
    | lose | spoil | orphan =>
      unfold Slot.lose at hq
      split at hq
      · exact .inl (there hold hq)
      · cases hq
    | commit => exact .inl (there hold hq)
    | retain => exact .inl (there hold (old.parity_retain ▸ hq))
    | free => exact .inl (there hold (old.parity_dropPayload ▸ hq))

/-- A window that keeps parity keeps its group size. -/
theorem holdsGroupData_of_parityAt? {q : ParityPacket} (hq : q ∈ w.parityAt? x) :
    w.holdsGroupData := by
  obtain ⟨slot, hs, hparity⟩ := Option.bind_eq_some_iff.1 hq
  refine List.any_eq_true.2 ⟨slot, SlotRing.mem_cellList hs, ?_⟩
  simp [hparity]

/-- A parity packet that no move told of was kept before. -/
theorem Move.keepsParity_of (hm : w.Move notes w') (h : w.Sound) (quiet : Note.parities notes = [])
    (hp : w'.keepsParity p) : w.keepsParity p := by
  obtain ⟨y, hy, q, hq, hindex⟩ := keepsParity_iff.1 hp
  rcases hm.parityAt?_cases h hq with hq | ⟨kept, rfl, -⟩
  · have hsize := hm.groupSize_eq (.inl (holdsGroupData_of_parityAt? hq))
    rw [groupNumbers, groupFirst, groupIndex, hsize] at hy
    rw [groupIndex, hsize] at hindex
    exact keepsParity_iff.2 ⟨y, hy, q, hq, hindex⟩
  · cases quiet

/-- Slots keep apart unless a packet is kept that its group kept already. -/
theorem Move.keepsApart (hm : w.Move notes w') (h : w.Sound) (ha : w.KeepsApart)
    (fresh : ∀ p ∈ Note.parities notes, ¬ w.keepsParity p) : w'.KeepsApart := by
  intro s x hx y hy hne q hq r hr
  have hpartition := fun z => mem_groupNumbers_iff (hm.sound h) (x := z) (s := s)
  have hgroup := fun z => mem_groupNumbers_iff h (x := z) (s := s)
  -- The packet kept at `z` differs from what another slot `u` of its group kept before.
  have apart : ∀ {z u : SeqNum} {kept : Packet} {t : ParityPacket}, notes = [.kept kept] →
      w'.groupSize = w.groupSize → z ∈ w.groupNumbers kept.sequence → z ∈ w'.groupNumbers s →
      u ∈ w'.groupNumbers s → t ∈ w.parityAt? u →
      t.index ≠ UInt32.ofNat (w.groupIndex kept.sequence) := by
    intro z u kept t hnotes hsize hz hzs hus ht hindex
    refine fresh kept (hnotes ▸ List.mem_singleton_self kept) (keepsParity_iff.2 ⟨u, ?_, t, ht, hindex⟩)
    rw [hpartition, hsize] at hzs hus
    rw [mem_groupNumbers_iff h] at hz ⊢
    rw [hus, ← hzs, hz]
  rcases hm.parityAt?_cases h hq with hq' | ⟨kept, hnotes, hmem, rfl, hothers⟩
  · have hsize := hm.groupSize_eq (.inl (holdsGroupData_of_parityAt? hq'))
    rcases hm.parityAt?_cases h hr with hr' | ⟨kept, hnotes, hmem, rfl, -⟩
    · rw [hpartition, hsize, ← hgroup] at hx hy
      exact ha s x hx y hy hne q hq' r hr'
    · exact apart hnotes hsize hmem hy hx hq'
  · have hr' : r ∈ w.parityAt? y := by rwa [← hothers y (Ne.symm hne)]
    have hsize := hm.groupSize_eq (.inl (holdsGroupData_of_parityAt? hr'))
    exact (apart hnotes hsize hmem hx hy hr').symm

/-- The same over a step, which keeps one packet at most. -/
theorem Moves.keepsApart (hm : w.Moves notes w') (h : w.Sound) (ha : w.KeepsApart)
    (single : (Note.parities notes).length ≤ 1)
    (fresh : ∀ p ∈ Note.parities notes, ¬ w.keepsParity p) : w'.KeepsApart := by
  induction hm with
  | done => exact ha
  | @next w v w' notes more first _ ih =>
    rw [Note.parities_append] at single fresh
    have hapart := first.keepsApart h ha fun p hp => fresh p (List.mem_append_left _ hp)
    refine ih (first.sound h) hapart ?_ fun p hp => ?_
    · rw [List.length_append] at single
      omega
    · cases hfirst : Note.parities notes with
      | nil =>
        exact fun hv => fresh p (List.mem_append_right _ hp) (first.keepsParity_of h hfirst hv)
      | cons q rest =>
        have := List.length_pos_of_mem hp
        rw [List.length_append, hfirst, List.length_cons] at single
        omega

/-! ### Reports -/

/-- The group that an answer reports as repairable. -/
def Answer.reported : Answer → Option Group
  | .receipt r => r.repairable
  | _ => none

theorem mapM_eq_some_iff {α β : Type} {f : α → Option β} {xs : List α} {ys : List β} :
    xs.mapM f = some ys ↔ (∀ x ∈ xs, (f x).isSome) ∧ xs.filterMap f = ys := by
  induction xs generalizing ys with
  | nil => simp
  | cons x xs ih =>
    cases hx : f x with
    | none => simp [List.mapM_cons, hx]
    | some y =>
      simp only [List.mapM_cons, hx, Option.bind_eq_bind, Option.bind_some, Option.bind_eq_some_iff, ih,
        Option.pure_def, Option.some.injEq, List.forall_mem_cons, Option.isSome_some, true_and,
        List.filterMap_cons]
      constructor
      · rintro ⟨rest, ⟨hall, rfl⟩, rfl⟩
        exact ⟨hall, rfl⟩
      · rintro ⟨hall, rfl⟩
        exact ⟨_, ⟨hall, rfl⟩, rfl⟩

/-- A group is reported with as much parity as it misses members, all of it from its slots. -/
theorem repairableGroup?_spec {g : Group} (hg : w.repairableGroup? s = some g) :
    0 < g.missing.length ∧ g.missing.length ≤ g.parity.length ∧
      g.parity.Perm ((w.groupNumbers s).filterMap w.parityAt?) := by
  unfold repairableGroup? at hg
  split at hg
  · cases hg
  · split at hg
    · cases hg
    next slots hslots =>
      simp only at hg
      split at hg
      next hready =>
        obtain rfl := Option.some.inj hg
        refine ⟨hready.2.1, hready.2.2, (ParityPacket.perm_sort _).trans ?_⟩
        rw [← (mapM_eq_some_iff.1 hslots).2, List.filterMap_filterMap]
        exact .refl _
      · cases hg

theorem exists_of_repairable_acceptData {source : Option RepairSource} {now : Timestamp} {g : Group}
    (hg : (w.acceptData p source now).2.repairable = some g) :
    ∃ s, (w.acceptData p source now).1.repairableGroup? s = some g := by
  cases hm : w.isMalformed p with
  | true =>
    rw [acceptData_of_malformed hm] at hg
    cases hg
  | false =>
    have htakes := takes_acceptData hm source now
    generalize w.acceptData p source now = answer at hg htakes
    cases htakes with
    | behind | lost | duplicate => cases hg
    | ahead | missing => exact ⟨p.sequence, hg⟩

theorem exists_of_repairable_storeParity {outcome : Outcome} {g : Group}
    (hg : (w.storeParity p outcome).2.repairable = some g) :
    ∃ s, (w.storeParity p outcome).1.repairableGroup? s = some g := by
  have stores := w.storesParity p outcome
  generalize w.storeParity p outcome = answer at *
  cases stores with
  | lost | duplicate => cases hg
  | keep => exact ⟨p.sequence, hg⟩

theorem exists_of_repairable_acceptParity {now : Timestamp} {g : Group}
    (hg : (w.acceptParity p now).2.repairable = some g) :
    ∃ s, (w.acceptParity p now).1.repairableGroup? s = some g := by
  unfold acceptParity at hg ⊢
  split at hg
  · cases hg
  next hsize =>
    rw [if_neg hsize]
    simp only at hg ⊢
    split at hg
    · cases hg
    next hbefore =>
      rw [if_neg hbefore]
      split at hg
      next hafter =>
        rw [if_pos hafter]
        exact exists_of_repairable_storeParity hg
      next hafter =>
        rw [if_neg hafter]
        exact exists_of_repairable_storeParity hg

theorem exists_of_repairable_forSession {tsi : Tsi} {accept : Window → Window × Receipt} {g : Group}
    (accepted : (accept w).2.repairable = some g → ∃ s, (accept w).1.repairableGroup? s = some g)
    (hg : (w.forSession tsi accept).2.repairable = some g) :
    w.isGone = false ∧ ∃ s, (w.forSession tsi accept).1.repairableGroup? s = some g := by
  unfold forSession whileLive at hg ⊢
  split at hg
  · cases hg
  next hsession =>
    rw [if_neg hsession]
    split at hg
    · cases hg
    next hlive =>
      rw [if_neg hlive]
      exact ⟨Bool.eq_false_iff.2 hlive, accepted hg⟩

theorem repairable_acceptStatus (w : Window) (trail lead : SeqNum) (size shift : Nat)
    (now : Timestamp) : (w.acceptStatus trail lead size shift now).2.repairable = none := by
  unfold acceptStatus
  split
  · rfl
  · simp only
    split <;> rfl

/-- What an operation reports is a group of the window that it leaves. -/
theorem exists_of_reported {op : Op} {g : Group} (hg : (w.step op).2.reported = some g) :
    w.isGone = false ∧ op.isPart ∧ op ≠ .shutdown ∧
      ∃ s, (w.step op).1.repairableGroup? s = some g := by
  have answered : ∀ {r : Window × Receipt}, (∃ o, r.2 = .of o) → r.2.repairable ≠ some g := by
    rintro r ⟨o, ho⟩ hr
    rw [ho] at hr
    cases hr
  have quiet : ∀ {f : Window → Window × Receipt}, (f w).2.repairable ≠ some g →
      (w.whileLive (.of .windowGone) f).2.repairable ≠ some g := by
    intro f hf
    unfold whileLive
    split
    · exact nofun
    · exact hf
  cases op with
  | push =>
    obtain ⟨hlive, hgroup⟩ := exists_of_repairable_forSession exists_of_repairable_acceptData hg
    exact ⟨hlive, rfl, nofun, hgroup⟩
  | pushRepair =>
    obtain ⟨hlive, hgroup⟩ := exists_of_repairable_forSession exists_of_repairable_acceptData hg
    exact ⟨hlive, rfl, nofun, hgroup⟩
  | pushParity =>
    obtain ⟨hlive, hgroup⟩ := exists_of_repairable_forSession exists_of_repairable_acceptParity hg
    exact ⟨hlive, rfl, nofun, hgroup⟩
  | confirmNak s sent now =>
    obtain ⟨o, ho, -⟩ := w.exists_acceptNcf_eq_of s sent now
    exact absurd hg (quiet (f := (·.acceptNcf s sent now)) (answered ⟨o, ho⟩))
  | updateStatus trail lead size shift now =>
    refine absurd hg (quiet (f := (·.acceptStatus trail lead size shift now)) ?_)
    rw [repairable_acceptStatus]
    exact nofun
  | markLost s =>
    obtain ⟨o, ho, -⟩ := w.exists_acceptLoss_eq_of s
    exact absurd hg (quiet (f := (·.acceptLoss s)) (answered ⟨o, ho⟩))
  | _ => cases hg

/-! ### Histories -/

/-- Once in the history a parity packet was kept although its group kept it already. -/
def RepeatsParity (w : Window) (ops : List Op) : Prop :=
  ∃ before p now after, ops = before ++ .pushParity p now :: after ∧
    (w.run before).keepsParity p ∧ ((w.run before).pushParity p now).2.consumed

theorem RepeatsParity.concat {ops : List Op} (h : w.RepeatsParity ops) (op : Op) :
    w.RepeatsParity (ops ++ [op]) := by
  obtain ⟨before, p, now, after, rfl, hp, hconsumed⟩ := h
  exact ⟨before, p, now, after ++ [op], by simp, hp, hconsumed⟩

theorem length_kept_le (op : Op) (answer : Answer) : (op.kept answer).length ≤ 1 := by
  unfold Op.kept
  split
  · split <;> simp
  · simp

theorem exists_of_mem_kept {op : Op} (hp : p ∈ op.kept (w.step op).2) :
    ∃ now, op = .pushParity p now ∧ (w.pushParity p now).2.consumed := by
  cases op with
  | pushParity q now =>
    change p ∈ if (w.pushParity q now).2.consumed then [q] else [] at hp
    split at hp
    next hconsumed =>
      obtain rfl := List.mem_singleton.1 hp
      exact ⟨now, rfl, hconsumed⟩
    · cases hp
  | _ => cases hp

theorem keepsApart_or_repeatsParity (h : w.Sound) (ha : w.KeepsApart) (ops : List Op)
    (parts : ∀ op ∈ ops, op.isPart) (live : (w.run ops).isGone = false) :
    (w.run ops).KeepsApart ∨ w.RepeatsParity ops := by
  refine (history_induction (motive := fun ops => (w.run ops).KeepsApart ∨ w.RepeatsParity ops) h
    (.inl ha) ?_ parts live).2
  rintro ops op notes hsound hmoves htells (hapart | hrepeats)
  · by_cases fresh : ∀ p ∈ Note.parities notes, ¬ (w.run ops).keepsParity p
    · refine .inl (hmoves.keepsApart hsound hapart ?_ fresh)
      rw [htells.parities]
      exact length_kept_le op _
    · simp only [not_forall, not_not] at fresh
      obtain ⟨p, hp, hkept⟩ := fresh
      obtain ⟨now, rfl, hconsumed⟩ := exists_of_mem_kept (htells.parities ▸ hp)
      exact .inr ⟨ops, p, now, [], rfl, hkept, hconsumed⟩
  · exact .inr (hrepeats.concat op)

/-- A group is reported with at least one parity packet for each missing member, and these are
different packets unless one was kept twice. -/
theorem reported_repairable (tsi : Tsi) (config : ValidConfig) (ops : List Op) (op : Op) {g : Group}
    (reported : (((create tsi config).run ops).step op).2.reported = some g) :
    0 < g.missing.length ∧ g.missing.length ≤ g.parity.length ∧
      ((g.parity.map (·.index)).Nodup ∨ (create tsi config).RepeatsParity (parts ops ++ [op])) := by
  obtain ⟨live, part, stays, s, hgroup⟩ := exists_of_reported reported
  obtain ⟨hmissing, henough, hperm⟩ := repairableGroup?_spec hgroup
  refine ⟨hmissing, henough, ?_⟩
  have hsound := (sound_run (sound_create tsi config) live).1
  obtain ⟨notes, hmoves, -⟩ := step_spec_of_ne hsound live part stays
  have hrun : (create tsi config).run (parts ops ++ [op]) =
      (((create tsi config).run ops).step op).1 := by rw [run_concat, run_parts]
  have hkept := keepsApart_or_repeatsParity (sound_create tsi config) (keepsApart_of_empty rfl)
    (parts ops ++ [op]) (by simpa [or_imp, forall_and, part] using isPart_of_mem_parts)
    (by rw [hrun, hmoves.keeps.isGone, live])
  rw [hrun] at hkept
  refine hkept.imp_left fun hapart => ?_
  have hsymm : ∀ {q r : ParityPacket}, q.index ≠ r.index → r.index ≠ q.index := Ne.symm
  rw [List.Nodup, List.pairwise_map, hperm.pairwise_iff hsymm, List.pairwise_filterMap]
  refine (SeqNum.nodup_run _ ?_).imp_of_mem fun {x y} hx hy hne q hq r hr => ?_
  · exact Nat.le_trans (hmoves.sound hsound).groupSize.2 (by decide)
  · exact hapart s x hx y hy hne q hq r hr

/-- A parity packet for the first group of the small window. -/
def smallParity (index : SeqNum) : Op := .pushParity ⟨smallTsi, index, none, ⟨#[3]⟩⟩ 0

/-- Two different parity packets replace both packets of a group. -/
theorem reported_repairable_small :
    let w := create smallTsi smallConfig
    ∃ g, ((w.run [smallParity 0]).step (smallParity 1)).2.reported = some g ∧
      g.missing.length = 2 ∧ g.missing.length ≤ g.parity.length ∧
        (g.parity.map (·.index)).Nodup := by
  obtain ⟨g, hg, hmissing⟩ : ∃ g, (((create smallTsi smallConfig).run [smallParity 0]).step
      (smallParity 1)).2.reported = some g ∧ g.missing.length = 2 := ⟨_, by rfl, by rfl⟩
  obtain ⟨-, henough, hapart⟩ := reported_repairable smallTsi smallConfig [smallParity 0] _ hg
  refine ⟨g, hg, hmissing, henough, hapart.resolve_right ?_⟩
  rintro ⟨before, p, now, after, he, hkept, -⟩
  match before, he with
  | [], he =>
    obtain ⟨rfl, rfl⟩ := Op.pushParity.inj (List.cons.inj he).1
    revert hkept
    decide +kernel
  | [first], he =>
    obtain ⟨rfl, htail⟩ := List.cons.inj he
    obtain ⟨rfl, rfl⟩ := Op.pushParity.inj (List.cons.inj htail).1
    revert hkept
    decide +kernel
  | first :: second :: rest, he => simpa [parts, Op.parts, smallParity] using congrArg List.length he

/-- The same parity packet is kept twice, and the group is reported with two packets of one index. -/
theorem repeated_parity_reported :
    ∃ g, (((create smallTsi smallConfig).run [smallParity 1]).step (smallParity 1)).2.reported =
        some g ∧
      g.missing.length = 2 ∧ g.parity.map (·.index) = [1, 1] ∧ ¬ (g.parity.map (·.index)).Nodup :=
  ⟨_, by rfl, by rfl, by rfl, by decide +kernel⟩

end Window

end ReliableMulticast
