import ReliableMulticast.Proofs.Ready
import ReliableMulticast.Proofs.Refusal

/-!
# The front is kept up to date

Every operation leaves the front of a window at rest, so what is ready there is handed out by the
next read. There is one exception: a parity packet that moves the lead and is then refused may evict
what was to be read, and it resolves nothing. The front can stay behind from then on until an
operation resolves it, and all that time there are losses to be told (`atRest_or_leftBehind`).
-/

namespace ReliableMulticast

/-- A placeholder at the end does not tell the scan more. -/
theorem ApduScan.succ_eq_incomplete_iff {scan : ApduScan} :
    scan.succ = .incomplete ↔ scan = .incomplete := by
  cases scan <;> simp [ApduScan.succ]

theorem scanFragments_append_pending {first : SeqNum} {total received : Nat} {slots : List Slot}
    {slot : Slot} (hp : slot.state.repairPending)
    (h : scanFragments first total received slots = .incomplete) :
    scanFragments first total received (slots ++ [slot]) = .incomplete := by
  induction slots generalizing received with
  | nil => exact scanFragments_of_pending hp []
  | cons old slots ih =>
    rw [List.cons_append]
    rcases scanFragments_cases first total received old slots with
      ⟨held, continues⟩ | ⟨hpending, -⟩ | ⟨-, hscan⟩ | ⟨-, -, hscan⟩
    · rw [scanFragments_of_continues held continues] at h ⊢
      split at h
      · cases h
      next hne =>
        split at h
        · cases h
        next hle =>
          rw [if_neg hne, if_neg hle, ApduScan.succ_eq_incomplete_iff]
          exact ih (ApduScan.succ_eq_incomplete_iff.1 h)
    · exact scanFragments_of_pending hpending _
    all_goals
      rw [hscan] at h
      cases h

namespace Window

variable {w w' : Window}

/-! ### Where the front can be -/

/-- The front stands where the reader stands, and there are losses to be told. -/
def Lags (w : Window) : Prop := w.commitTrail = w.commitLead ∧ 0 < w.unreportedLosses

/-- A step that resolves nothing and leaves the front alone. -/
structure Idles (w w' : Window) : Prop where
  rest : w.AtRest → w'.AtRest
  lags : w.Lags → w'.Lags

/-- A step that resolves nothing and may move the front to where the window begins. -/
structure Overtakes (w w' : Window) : Prop where
  rest : w.AtRest → w'.AtRest ∨ w'.Lags
  lags : w.Lags → w'.Lags

theorem Idles.overtakes (h : w.Idles w') : w.Overtakes w' := ⟨fun hr => .inl (h.rest hr), h.lags⟩

theorem Overtakes.of_lags (h : w'.Lags) : w.Overtakes w' := ⟨fun _ => .inr h, fun _ => h⟩

theorem Overtakes.refl (w : Window) : w.Overtakes w := ⟨.inl, id⟩

theorem Overtakes.trans {w'' : Window} (h : w.Overtakes w') (h' : w'.Overtakes w'') :
    w.Overtakes w'' := by
  refine ⟨fun hr => ?_, fun hl => h'.lags (h.lags hl)⟩
  rcases h.rest hr with hr | hl
  · exact h'.rest hr
  · exact .inr (h'.lags hl)

theorem Lags.of_eq (h : w.Lags) (hct : w'.commitTrail = w.commitTrail)
    (hcl : w'.commitLead = w.commitLead) (hu : w'.unreportedLosses = w.unreportedLosses) :
    w'.Lags := by
  rw [Lags, hct, hcl, hu]
  exact h

theorem Lags.of_frame_eq (h : w.Lags) (hf : w'.frame = w.frame) : w'.Lags :=
  h.of_eq (congrArg Frame.commitTrail hf) (congrArg Frame.commitLead hf)
    (congrArg Frame.unreportedLosses hf)

/-- Numbers that leave are losses to be told. -/
theorem unreported_pos (m : Nat) {n : Nat} (pos : 0 < n) : 0 < min (m + n) maxReported := by
  simp only [maxReported]
  omega

/-! ### Moving the lead -/

theorem AtRest.addPlaceholder (h : w.AtRest) (hs : w.Sound) (room : w.slots.size < w.capacity)
    (now : Timestamp) : (addPlaceholder now w w.next).AtRest := by
  obtain ⟨hnext, -, -⟩ : (Window.addPlaceholder now w w.next).next = w.next.next ∧ _ :=
    places_append rfl room
  have hget : ∀ x, (Window.addPlaceholder now w w.next).slots.get? x = _ :=
    Sound.get?_append rfl room
  have hlead : (Window.addPlaceholder now w w.next).commitLead = w.commitLead := rfl
  have hgap := hs.gap_commitLead
  have hsize := hs.size_le
  rw [atRest_iff] at h ⊢
  intro slot found
  have hcontains := SlotRing.isSome_get?_iff.1 (Option.isSome_of_eq_some found)
  rw [hlead] at found hcontains ⊢
  rw [hget] at found
  split at found
  · obtain rfl := Option.some.inj found
    exact .inl rfl
  next hne =>
    refine (h slot found).imp_right fun ⟨hdata, f, hf, hfirst, hscan⟩ => ⟨hdata, f, hf, hfirst, ?_⟩
    have hplace := place_lt_of_get? found
    have hgrown : w.commitLead.gap w.next.next = w.commitLead.gap w.next + 1 :=
      SeqNum.gap_add_right (by omega)
    have hsame : (Window.addPlaceholder now w w.next).slots.slice w.commitLead
        (w.commitLead.gap w.next) = w.slots.slice w.commitLead (w.commitLead.gap w.next) := by
      refine SlotRing.slice_congr fun k hk => ?_
      rw [hget, if_neg]
      intro he
      have := SeqNum.gap_add w.commitLead (n := k) (by omega)
      rw [he] at this
      omega
    rw [scanApdu, slotsFrom_eq_slice (contains_iff_place.2 hplace)] at hscan
    rw [scanApdu, slotsFrom_eq_slice hcontains, hnext, hgrown, SlotRing.slice_add, hsame,
      SeqNum.add_gap, SlotRing.slice_succ ((hget _).trans (if_pos rfl)), SlotRing.slice_zero]
    exact scanFragments_append_pending rfl hscan

theorem overtakes_addPlaceholders_run (now : Timestamp) {n : Nat} (hs : w.Sound)
    (defined : w.isDefined) (room : w.slots.size + n ≤ w.capacity) :
    w.Overtakes ((w.next.run n).foldl (addPlaceholder now) w) := by
  induction n generalizing w with
  | zero => exact .refl w
  | succ n ih =>
    have first : w.Move [] (addPlaceholder now w w.next) := .addPlaceholder now defined (by omega)
    obtain ⟨hnext, hsize, hcap⟩ : (addPlaceholder now w w.next).next = w.next.next ∧
        (addPlaceholder now w w.next).slots.size = w.slots.size + 1 ∧
        (addPlaceholder now w w.next).capacity = w.capacity := places_append rfl (by omega)
    have later := ih (first.sound hs) defined (by omega)
    have here : w.Idles (addPlaceholder now w w.next) :=
      ⟨fun hr => hr.addPlaceholder hs (by omega) now, fun hl => hl.of_eq rfl rfl rfl⟩
    rw [hnext] at later
    exact here.overtakes.trans later

theorem overtakes_evictTrail (hs : w.Sound) (nonempty : 0 < w.slots.size) :
    w.Overtakes w.evictTrail := by
  obtain ⟨slot, slots, hpop⟩ := Sound.exists_popTrail? nonempty
  by_cases hfront : w.place w.commitTrail = 0
  · rw [Sound.evictTrail_of_front hfront hpop]
    exact .of_lags ⟨rfl, unreported_pos _ Nat.one_pos⟩
  · -- The slot at the trail was delivered, so the front does not see it go.
    have hle := hs.commitTrail_le
    have hbefore : w.trail.Before w.commitTrail := by
      rw [hs.before_iff (by simp) hs.place_commitTrail_le, place_trail]
      omega
    have hevict : w.evictTrail = { w.dropTrail with queues := w.queues.unqueue slot } := by
      simp [evictTrail, dropTrail, hpop, hbefore]
    obtain ⟨-, hnext, hget⟩ := dropTrail_spec nonempty
    rw [hevict]
    refine Idles.overtakes ⟨fun hr => ?_, fun hl => hl.of_eq w.commitTrail_dropTrail
      w.commitLead_dropTrail w.unreportedLosses_dropTrail⟩
    have hrest : w.dropTrail.AtRest := by
      refine hr.of_behind hs (hs.reclaim (Nat.pos_of_ne_zero hfront)) w.commitLead_dropTrail
        hnext fun x hx => ?_
      rw [hget, if_neg]
      rintro rfl
      rw [place_trail] at hx
      omega
    exact hrest.of_slots_eq rfl rfl

theorem overtakes_evict (n : Nat) (hs : w.Sound) (hn : n ≤ w.slots.size) :
    w.Overtakes (evict n w) := by
  induction n generalizing w with
  | zero => exact .refl w
  | succ n ih =>
    obtain ⟨_, -, hmoves, -, hsize⟩ := moves_evictTrail hs (by omega)
    exact (overtakes_evictTrail hs (by omega)).trans (ih (hmoves.sound hs) (by omega))

/-- A lead that moves pushes the front along or leaves it where it is. -/
theorem overtakes_advanceLead (hs : w.Sound) (defined : w.isDefined) {lead : SeqNum}
    (ahead : lead.After w.lead) (now : Timestamp) : w.Overtakes (w.advanceLead lead now) := by
  rw [after_lead_iff] at ahead
  obtain ⟨_, -, hmoves, -⟩ := makeRoom_spec hs defined ahead
  have hmax := (hmoves.sound hs).capacity_le
  have room := room_makeRoom hs defined ahead
  have hmade : w.Overtakes (w.makeRoom lead) := by
    rcases makeRoom_cases hs ahead with ⟨hle, he⟩ | ⟨target, -, -, hempty, hbefore, he⟩
    · rw [he]
      exact overtakes_evict _ hs hle
    · obtain ⟨_, -, hevict, -, -⟩ := moves_evict w.slots.size hs (Nat.le_refl _)
      rw [he, (hevict.sound hs).skip_eq hempty hbefore]
      refine .of_lags ⟨rfl, unreported_pos _ ?_⟩
      rw [SeqNum.before_iff] at hbefore
      omega
  have hfill : (w.makeRoom lead).Overtakes (w.advanceLead lead now) := by
    have hrun := overtakes_addPlaceholders_run now (n := (w.makeRoom lead).next.gap lead.next)
      (hmoves.sound hs) (hmoves.keeps.isDefined defined) room
    rw [advanceLead, addPlaceholders, SeqNum.upTo_eq_run (by omega)]
    refine hrun.trans ⟨fun hr => .inl (hr.of_slots_eq rfl rfl), fun hl => hl.of_eq rfl rfl rfl⟩
  exact hmade.trans hfill

/-! ### Operations -/

theorem OnlyCounted.idles (h : w.OnlyCounted w') : w.Idles w' := by
  cases h with
  | same => exact ⟨id, id⟩
  | duplicate | malformed => exact ⟨fun hr => hr.of_slots_eq rfl rfl, fun hl => hl.of_eq rfl rfl rfl⟩

/-- The operation resolves the front, or it refuses its input and changes nothing. -/
def Upkeeps (w : Window) (answer : Window × Receipt) : Prop :=
  answer.1.AtRest ∨ answer.2.outcome.refuses ∧ w.Idles answer.1

theorem upkeeps_acceptData (w : Window) (p : Packet) (source : Option RepairSource)
    (now : Timestamp) : w.Upkeeps (w.acceptData p source now) := by
  have refused := w.refusesInPlace_acceptData p source now
  cases hm : w.isMalformed p with
  | true =>
    have hrefuse := acceptData_of_malformed hm source now
    rw [hrefuse] at refused ⊢
    exact .inr ⟨rfl, (refused rfl).idles⟩
  | false =>
    have htakes := takes_acceptData hm source now
    generalize w.acceptData p source now = answer at htakes refused
    cases htakes with
    | behind | lost | duplicate => exact .inr ⟨rfl, (refused rfl).idles⟩
    | ahead | missing => exact .inl (atRest_resolve _)

/-- A parity packet is stored and the front resolved, or it is refused. -/
theorem atRest_storeParity (w : Window) (p : Packet) (outcome : Outcome) :
    (w.storeParity p outcome).1.AtRest ∨ (w.storeParity p outcome).2.outcome.refuses := by
  have stores := w.storesParity p outcome
  generalize w.storeParity p outcome = answer at *
  cases stores with
  | lost | duplicate => exact .inr rfl
  | keep => exact .inl (atRest_resolve _)

theorem atRest_acceptParity (w : Window) (p : Packet) (now : Timestamp) :
    (w.acceptParity p now).1.AtRest ∨ (w.acceptParity p now).2.outcome.refuses := by
  unfold acceptParity
  split
  · exact .inr rfl
  · simp only
    split
    · exact .inr rfl
    · split
      · exact atRest_storeParity _ p .advancedWindow
      · exact atRest_storeParity _ p .ok

theorem upkeeps_acceptStatus (w : Window) (trail lead : SeqNum) (size shift : Nat)
    (now : Timestamp) : w.Upkeeps (w.acceptStatus trail lead size shift now) := by
  have refused := w.refusesInPlace_acceptStatus trail lead size shift now
  unfold acceptStatus at refused ⊢
  split
  next hm =>
    rw [if_pos hm] at refused
    exact .inr ⟨rfl, (refused rfl).idles⟩
  · simp only
    split
    · exact .inl (atRest_of_empty rfl)
    · exact .inl (atRest_resolve _)

theorem idles_acceptNcf (hs : w.Sound) (s : SeqNum) (sent now : Timestamp) :
    w.Idles (w.acceptNcf s sent now).1 := by
  refine ⟨fun hr => hr.acceptNcf hs s sent now, fun hl => ?_⟩
  rcases w.acceptNcf_cases s sent now with ⟨he, -⟩ | ⟨slot, timer, -, -, -, -, he⟩ <;> rw [he]
  · exact hl
  · exact hl.of_frame_eq (frame_modify w slot.sequence _)

theorem atRest_or_idles_acceptLoss (w : Window) (s : SeqNum) :
    (w.acceptLoss s).1.AtRest ∨ w.Idles (w.acceptLoss s).1 := by
  rcases w.acceptLoss_cases s with he | ⟨_, -, -, -, he⟩ <;> rw [he]
  · exact .inr ⟨id, id⟩
  · exact .inl (atRest_resolve _)

theorem atRest_readReady (w : Window) (count : Nat) : (w.readReady count).1.AtRest :=
  atRest_resolve _

theorem idles_releaseUpTo (limit : Nat) (hs : w.Sound) : w.Idles (releaseUpTo limit w).1 := by
  refine ⟨fun hr => hr.releaseUpTo limit hs, fun hl => ?_⟩
  have releases := releases_releaseUpTo limit w
  generalize (releaseUpTo limit w).1 = w' at releases ⊢
  clear hs
  induction releases with
  | done => exact hl
  | hold => exact hl.of_frame_eq (frame_modify ..)
  | drop before unneeded later ih =>
    exact ih (hl.of_eq (commitTrail_dropTrail _) (commitLead_dropTrail _)
      (unreportedLosses_dropTrail _))

theorem idles_freeDelivered (hs : w.Sound) : w.Idles w.freeDelivered :=
  ⟨fun hr => hr.freeDelivered hs, fun hl => hl.of_frame_eq (frame_foldl frame_freeSlot _ w)⟩

/-! ### Steps -/

/-- The answer tells that the front was resolved. -/
def Op.resolves : Op → Answer → Bool
  | .push .., .receipt r | .pushRepair .., .receipt r | .pushParity .., .receipt r
  | .updateStatus .., .receipt r => !r.outcome.refuses
  | .sweep _, _ | .read _, _ => true
  | _, _ => false

/-- The operation is a parity packet for a group beyond the lead that is refused nevertheless. -/
def Op.IsLate (w : Window) : Op → Prop
  | .pushParity p now =>
    (w.groupLast p.sequence).After w.lead ∧ (w.pushParity p now).2.outcome = .apduLost
  | _ => False

theorem Upkeeps.forSession {tsi : Tsi} {accept : Window → Window × Receipt}
    (live : w.isGone = false) (h : w.Upkeeps (accept w)) : w.Upkeeps (w.forSession tsi accept) := by
  unfold Window.forSession
  split
  · exact .inr ⟨rfl, id, id⟩
  · rwa [whileLive_of_live live]

/-- A step leaves the front at rest, or it resolves nothing and leaves the front alone. Only a late
parity packet moves it without resolving. -/
theorem step_upkeeps (hs : w.Sound) (live : w.isGone = false) {op : Op} (part : op.isPart)
    (stays : op ≠ .shutdown) :
    (w.step op).1.AtRest ∨ op.resolves (w.step op).2 = false ∧
      (w.Idles (w.step op).1 ∨ op.IsLate w ∧ w.Overtakes (w.step op).1) := by
  have answered : ∀ {answer : Window × Receipt}, w.Upkeeps answer → answer.1.AtRest ∨
      (!answer.2.outcome.refuses) = false ∧ (w.Idles answer.1 ∨ op.IsLate w ∧ w.Overtakes answer.1) := by
    rintro answer (hr | ⟨refused, hi⟩)
    · exact .inl hr
    · exact .inr ⟨by rw [refused]; rfl, .inl hi⟩
  cases op with
  | push p now => exact answered ((w.upkeeps_acceptData p none now).forSession live)
  | pushRepair p source now =>
    exact answered ((w.upkeeps_acceptData p (some source) now).forSession live)
  | pushParity p now =>
    cases refused : (w.pushParity p now).2.outcome.refuses with
    | false =>
      simp only [pushParity, forSession] at refused
      split at refused
      · cases refused
      next hsession =>
        rw [whileLive_of_live live] at refused
        refine .inl ?_
        simp only [step, pushParity, forSession, if_neg hsession, whileLive_of_live live]
        exact (w.atRest_acceptParity p now).resolve_right (by rw [refused]; decide)
    | true =>
      refine .inr ⟨by simp [step, Op.resolves, refused], ?_⟩
      cases hd : w.isDefined with
      | false =>
        have hsame := refusesInPlace_acceptParity_of_undefined hs hd p now
        exact .inl (RefusesInPlace.forSession hsame refused).idles
      | true =>
        rcases refused_pushParity (fun _ => hs) p now refused with
          hsame | ⟨hlost, hafter, -, hmoved⟩
        · exact .inl hsame.idles
        · refine .inr ⟨⟨hafter, hlost⟩, ?_⟩
          have hover := overtakes_advanceLead hs hd hafter now
          rwa [← hmoved] at hover
  | confirmNak s sent now =>
    simp only [step, confirmNak, whileLive_of_live live]
    exact .inr ⟨rfl, .inl (idles_acceptNcf hs s sent now)⟩
  | updateStatus trail lead size shift now =>
    simp only [step, updateStatus, whileLive_of_live live]
    exact answered (w.upkeeps_acceptStatus trail lead size shift now)
  | markLost s =>
    simp only [step, markLost, whileLive_of_live live]
    exact (w.atRest_or_idles_acceptLoss s).imp_right fun hi => ⟨rfl, .inl hi⟩
  | sweep now =>
    simp only [step, sweep, whileLive_of_live live]
    exact .inl (atRest_sweepAll hs now)
  | read count =>
    rw [step_read live]
    exact .inl (w.atRest_readReady count)
  | release =>
    simp only [step, release, whileLive_of_live live]
    exact .inr ⟨rfl, .inl (idles_releaseUpTo _ hs)⟩
  | free =>
    simp only [step, free, live]
    exact .inr ⟨rfl, .inl (idles_freeDelivered hs)⟩
  | shutdown => exact absurd rfl stays
  | repair => cases part

/-! ### Histories -/

/-- A late parity packet moved the front to where the window begins, and no operation resolved it
since. -/
def LeftBehind (w : Window) (ops : List Op) : Prop :=
  (w.run ops).Lags ∧ ∃ before op after, ops = before ++ op :: after ∧ op.IsLate (w.run before) ∧
    ∀ entry ∈ (w.run (before ++ [op])).record after, entry.1.resolves entry.2 = false

theorem LeftBehind.concat {ops : List Op} {op : Op} (h : w.LeftBehind ops)
    (quiet : op.resolves ((w.run ops).step op).2 = false)
    (idles : (w.run ops).Idles (w.run (ops ++ [op]))) : w.LeftBehind (ops ++ [op]) := by
  obtain ⟨hlags, before, late, after, rfl, hlate, hquiet⟩ := h
  refine ⟨idles.lags hlags, before, late, after ++ [op], by simp, hlate, fun entry hentry => ?_⟩
  rw [record_append, List.mem_append] at hentry
  rcases hentry with hentry | hentry
  · exact hquiet entry hentry
  · obtain rfl := List.mem_singleton.1 hentry
    rwa [← run_append, List.append_assoc]

theorem atRest_or_leftBehind (hs : w.Sound) (hr : w.AtRest) {ops : List Op}
    (hparts : ∀ op ∈ ops, op.isPart) (live : (w.run ops).isGone = false) :
    (w.run ops).AtRest ∨ w.LeftBehind ops := by
  induction ops using List.reverseRecOn with
  | nil => exact .inl hr
  | append_singleton ops op ih =>
    have before := isGone_run_of_append live
    have earlier := ih (fun x hx => hparts x (List.mem_append_left _ hx)) before
    have hsound := (sound_run hs before).1
    have stays : op ≠ .shutdown := by
      rintro rfl
      simp [run_concat, step, shutdown, before] at live
    have hstep := step_upkeeps hsound before
      (hparts op (List.mem_append_right ops (List.mem_singleton_self op))) stays
    rw [← run_concat] at hstep
    rcases hstep with hrest | ⟨quiet, hidles | ⟨hlate, hover⟩⟩
    · exact .inl hrest
    · exact earlier.imp hidles.rest fun hb => hb.concat quiet hidles
    · have moved : (w.run (ops ++ [op])).Lags → w.LeftBehind (ops ++ [op]) := fun hlags =>
        ⟨hlags, ops, op, [], rfl, hlate, fun entry hentry => by cases hentry⟩
      rcases earlier with hrest | hb
      · exact (hover.rest hrest).imp_right moved
      · exact .inr (moved (hover.lags hb.1))

/-- After any history there is nothing to resolve: the front is past the lead, or its slot misses its
packet or begins an APDU that misses one, and a read to the end hands out all that is ready. Or a
late parity packet left the front behind. -/
theorem front_upkept (tsi : Tsi) (config : ValidConfig) (ops : List Op)
    (live : ((create tsi config).run ops).isGone = false) :
    let w := (create tsi config).run ops
    (w.resolve = w ∧
      (∀ slot, w.slots.get? w.commitLead = some slot →
        slot.state.repairPending ∨ slot.state = .haveData ∧ ∃ f, slot.fragment = some f ∧
          f.apduFirst = w.commitLead ∧ w.scanApdu w.commitLead f.totalLength.toNat = .incomplete) ∧
      ∀ m count, w.Ready m → w.slots.size ≤ count → m ∈ (w.read count).2.messages) ∨
    (create tsi config).LeftBehind (parts ops) := by
  intro w
  have hsound : w.Sound := (sound_run (sound_create tsi config) live).1
  have hrun := run_parts (create tsi config) ops
  have hrest := atRest_or_leftBehind (sound_create tsi config) (atRest_of_empty rfl)
    isPart_of_mem_parts (by rwa [hrun])
  rw [hrun] at hrest
  refine hrest.imp_left fun hr => ⟨hr.resolve_eq, atRest_iff.1 hr, fun m count ready enough => ?_⟩
  rw [read, whileLive_of_live live]
  exact hr.mem_readReady hsound ready enough

/-- A full window with two packets to be read, and the first member of a group given up at its
lead. -/
def readyHistory : List Op :=
  [smallPush 4294967295 none 1, smallPush 0 none 7, smallPush 2 none 2, .markLost 2]

/-- The second of the packets to be read. -/
def readyMessage : Message := ⟨0, 1, ⟨#[7]⟩⟩

theorem holdsMessage_of_ofPacket (p : Packet) (now : Timestamp) (alone : p.fragment = none)
    (found : w.slots.get? p.sequence = some (.ofPacket p now)) :
    w.HoldsMessage ⟨p.sequence, 1, p.payload⟩ := by
  refine ⟨[.ofPacket p now], rfl, .single rfl alone, fun k slot hk => ?_, ?_⟩
  · match k with
    | 0 =>
      obtain rfl := Option.some.inj hk
      exact ⟨by rwa [SeqNum.add_zero], rfl⟩
  · exact ByteArray.empty_append.symm

theorem ready_readyHistory : ((create smallTsi smallConfig).run readyHistory).Ready readyMessage := by
  refine ⟨1, holdsMessage_of_ofPacket ⟨smallTsi, 0, none, ⟨#[7]⟩⟩ 0 rfl (by rfl),
    by decide +kernel, by decide +kernel, ?_⟩
  have found : ((create smallTsi smallConfig).run readyHistory).slots.get?
      ((create smallTsi smallConfig).run readyHistory).commitTrail =
        some (.ofPacket ⟨smallTsi, 4294967295, none, ⟨#[1]⟩⟩ 0) := by rfl
  rw [SlotRing.slice_succ found]
  exact .apdu (.single rfl rfl) .nil

theorem front_upkept_small :
    ((create smallTsi smallConfig).run readyHistory).isGone = false ∧
      let w := (create smallTsi smallConfig).run readyHistory
      w.resolve = w ∧ readyMessage ∈ (w.read 4).2.messages := by
  have live : ((create smallTsi smallConfig).run readyHistory).isGone = false := by rfl
  have upkept := (front_upkept smallTsi smallConfig readyHistory live).resolve_right (by
    rintro ⟨-, before, op, after, he, hlate, -⟩
    have hmem : op ∈ parts readyHistory := he ▸ List.mem_append_right _ (List.mem_cons_self ..)
    simp only [readyHistory, smallPush, parts, List.flatMap_cons, Op.parts, List.flatMap_nil,
      List.cons_append, List.nil_append, List.mem_cons, List.not_mem_nil, or_false] at hmem
    rcases hmem with rfl | rfl | rfl | rfl <;> exact hlate)
  exact ⟨live, upkept.1, upkept.2.2 readyMessage 4 ready_readyHistory (by decide +kernel)⟩

/-- A parity packet of the lost member's group. -/
def lateParity : Op := .pushParity ⟨smallTsi, 2, none, ⟨#[3]⟩⟩ 0

theorem ready_lateParity :
    ((create smallTsi smallConfig).run (readyHistory ++ [lateParity])).Ready readyMessage :=
  ⟨0, holdsMessage_of_ofPacket ⟨smallTsi, 0, none, ⟨#[7]⟩⟩ 0 rfl (by rfl),
    by decide +kernel, by decide +kernel, .nil⟩

/-- The late parity packet evicts the first packet, and the second one is at the front and ready, but
the next read does not hand it out. -/
theorem late_parity_leaves_behind :
    let w := (create smallTsi smallConfig).run (readyHistory ++ [lateParity])
    w.isGone = false ∧ w.commitLead = 0 ∧ w.resolve.commitLead = 1 ∧ w.Ready readyMessage ∧
      (w.read 4).2.messages = [] :=
  ⟨by rfl, by decide +kernel, by decide +kernel, ready_lateParity, by rfl⟩

end Window

end ReliableMulticast
