import ReliableMulticast.Proofs.Tallying

/-!
# Late repairs

Between the report of a group and its repair anything may happen to the window. A repair does no harm
even so: what was reported missing does not get ahead of the lead again, unless the lead moves by a
quarter of the number space (`not_after_of_reported`), so no rebuilt packet is taken for a new one
that moves the window (`staysPut_repairs`). What a repair answers is what it did: it counts each slot
that it fills (`fecRepairs_repairMembers`), and if the decoder fails, the packets rebuilt until then
were taken in and no others (`repairs_of_fails`).
-/

namespace ReliableMulticast.Window

variable {w w' : Window} {p : Packet} {s x : SeqNum} {g : Group} {decode : Decoder}
  {now : Timestamp}

/-! ### What a repair counts -/

theorem fecRepairs_giveUpSlot (w : Window) (s : SeqNum) :
    (w.giveUpSlot s).counters.fecRepairs = w.counters.fecRepairs := by
  obtain ⟨n, hn⟩ := w.counters_giveUpSlot s
  rw [hn]
  rfl

theorem fecRepairs_loseApdu (w : Window) (s : SeqNum) :
    (w.loseApdu s).counters.fecRepairs = w.counters.fecRepairs := by
  obtain ⟨n, hn⟩ := w.counters_loseApdu s
  rw [hn]
  rfl

theorem fecRepairs_resolve (w : Window) :
    w.resolve.counters.fecRepairs = w.counters.fecRepairs := by
  refine resolveSteps_of_step (R := fun w w' => w'.counters.fecRepairs = w.counters.fecRepairs)
    (fun _ => rfl) (fun h h' => h'.trans h) (fun {w w'} hstep => ?_) _ w
  obtain ⟨count, rfl⟩ | rfl | rfl | rfl := resolveStep?_cases hstep
  · rfl
  · exact w.fecRepairs_giveUpSlot w.commitLead
  · exact w.fecRepairs_loseApdu w.commitLead
  · exact fecRepairs_loseApdu { w with counters := w.counters.addMalformed } w.commitLead

theorem fecRepairs_makeRoom (w : Window) (last : SeqNum) :
    (w.makeRoom last).counters.fecRepairs = w.counters.fecRepairs := by
  obtain ⟨_, _, _, _, _, _, he⟩ := w.givesWay_makeRoom last
  rw [he]
  rfl

theorem fecRepairs_extend (w : Window) (p : Packet) (now : Timestamp) :
    (w.extend p now).counters.fecRepairs = w.counters.fecRepairs := by
  have happend : ∀ (w : Window) (slot : Slot), (w.append slot).counters = w.counters :=
    fun _ _ => rfl
  rw [extend, happend, counters_addPlaceholders, fecRepairs_makeRoom]

theorem fecRepairs_fillSlot (w : Window) (slot : Slot) (p : Packet) (now : Timestamp) :
    (w.fillSlot slot p (some .parity) now).counters.fecRepairs = w.counters.fecRepairs + 1 := by
  simp only [fillSlot, Option.isSome_some, true_or, if_true]
  rfl

theorem fecRepairs_acceptData (w : Window) (p : Packet) (now : Timestamp) :
    (w.acceptData p (some .parity) now).1.counters.fecRepairs = w.counters.fecRepairs +
      if (w.acceptData p (some .parity) now).2.outcome = .filledPlaceholder then 1 else 0 := by
  cases hm : w.isMalformed p with
  | true =>
    rw [acceptData_of_malformed hm]
    rfl
  | false =>
    have htakes := takes_acceptData hm (some .parity) now
    have placed : (w.ensureDefined p.sequence).counters = w.counters := by
      unfold ensureDefined
      split <;> rfl
    rw [← placed]
    generalize w.acceptData p (some .parity) now = answer at htakes
    generalize w.ensureDefined p.sequence = w at htakes
    cases htakes with
    | behind | lost | duplicate => rfl
    | ahead => exact (fecRepairs_resolve _).trans (w.fecRepairs_extend p now)
    | @missing slot => exact (fecRepairs_resolve _).trans (w.fecRepairs_fillSlot slot p now)

/-- A rebuilt packet is counted if it fills a slot. -/
theorem fecRepairs_pushRepair (w : Window) (p : Packet) (now : Timestamp) :
    (w.pushRepair p .parity now).1.counters.fecRepairs = w.counters.fecRepairs +
      if (w.pushRepair p .parity now).2.outcome = .filledPlaceholder then 1 else 0 := by
  unfold pushRepair forSession
  split
  · rfl
  unfold whileLive
  split
  · rfl
  · exact w.fecRepairs_acceptData p now

/-- A repair that does not fail answers how many slots it filled, and counts just these. -/
theorem fecRepairs_repairMembers {numbers : List SeqNum} {n : Nat}
    (done : (repairMembers g decode now numbers w).2 = .ok n) :
    (repairMembers g decode now numbers w).1.counters.fecRepairs = w.counters.fecRepairs + n := by
  induction numbers generalizing w n with
  | nil =>
    obtain rfl := Except.ok.inj done
    rfl
  | cons s numbers ih =>
    rw [repairMembers] at done ⊢
    cases hdecode : decode g s with
    | error text =>
      rw [hdecode] at done
      cases done
    | ok payload =>
      have hcount := w.fecRepairs_pushRepair ⟨g.tsi, s, none, payload⟩ now
      rw [hdecode] at done
      simp only at done ⊢
      generalize w.pushRepair ⟨g.tsi, s, none, payload⟩ .parity now = answer at *
      split at done
      · cases done
      next hlive =>
        rw [if_neg hlive]
        cases hrest : (repairMembers g decode now numbers answer.1).2 with
        | error e =>
          rw [hrest] at done
          cases done
        | ok m =>
          rw [hrest] at done
          rw [ih hrest, hcount, ← Except.ok.inj done]
          exact (Nat.add_assoc ..).trans (congrArg _ (Nat.add_comm ..))

/-! ### What a failed repair did -/

/-- The packets rebuilt for the first missing members, before the decoder fails, are all that is
taken in. -/
theorem repairs_of_fails {rebuilt : List (SeqNum × ByteArray)} {rest : List SeqNum} {text : String}
    (decoded : ∀ m ∈ rebuilt, decode g m.1 = .ok m.2) (fails : decode g s = .error text) :
    Op.repairs g decode now (rebuilt.map Prod.fst ++ s :: rest) =
      rebuilt.map fun m => .pushRepair ⟨g.tsi, m.1, none, m.2⟩ .parity now := by
  induction rebuilt with
  | nil =>
    rw [List.map_nil, List.nil_append, Op.repairs, fails]
    rfl
  | cons m rebuilt ih =>
    rw [List.forall_mem_cons] at decoded
    rw [List.map_cons, List.cons_append, Op.repairs, decoded.1, ih decoded.2]
    rfl

/-- The answer of a repair whose decoder fails is the decoder's error. -/
theorem repairMembers_of_fails (h : w.Sound) (live : w.isGone = false)
    {rebuilt : List (SeqNum × ByteArray)} {rest : List SeqNum} {text : String}
    (decoded : ∀ m ∈ rebuilt, decode g m.1 = .ok m.2) (fails : decode g s = .error text) :
    (repairMembers g decode now (rebuilt.map Prod.fst ++ s :: rest) w).2 =
      .error (.decoder text) := by
  induction rebuilt generalizing w with
  | nil => rw [List.map_nil, List.nil_append, repairMembers, fails]
  | cons m rebuilt ih =>
    rw [List.forall_mem_cons] at decoded
    have stays : (Op.pushRepair ⟨g.tsi, m.1, none, m.2⟩ .parity now) ≠ .shutdown := by
      intro heq
      cases heq
    obtain ⟨_, hmoves, -⟩ := step_spec_of_ne h live rfl stays
    have later : (repairMembers g decode now (rebuilt.map Prod.fst ++ s :: rest)
        (w.pushRepair ⟨g.tsi, m.1, none, m.2⟩ .parity now).1).2 = .error (.decoder text) :=
      ih (hmoves.sound h) (hmoves.keeps.isGone.trans live) decoded.2
    have here : (w.pushRepair ⟨g.tsi, m.1, none, m.2⟩ .parity now).2.outcome ≠ .windowGone := by
      intro hgone
      cases live.symm.trans (isGone_of_outcome hgone)
    rw [List.map_cons, List.cons_append, repairMembers, decoded.1]
    simp only [if_neg here, later]
    rfl

/-! ### Where a late repair leaves the window -/

/-- The window is where it was, and holds the numbers that it held. -/
structure StaysPut (w w' : Window) : Prop where
  trail : w'.trail = w.trail
  lead : w'.lead = w.lead
  contains : ∀ x, w'.slots.Contains x ↔ w.slots.Contains x

theorem StaysPut.refl (w : Window) : w.StaysPut w := ⟨rfl, rfl, fun _ => Iff.rfl⟩

theorem StaysPut.trans {v : Window} (h : w.StaysPut v) (h' : v.StaysPut w') : w.StaysPut w' where
  trail := h'.trail.trans h.trail
  lead := h'.lead.trans h.lead
  contains := fun x => (h'.contains x).trans (h.contains x)

theorem staysPut_of_frame (same : w'.frame = { w.frame with commitLead := w'.commitLead }) :
    w.StaysPut w' := by
  have trail : w'.trail = w.trail := congrArg Frame.trail same
  have size : w'.slots.size = w.slots.size := congrArg Frame.size same
  refine ⟨trail, ?_, fun x => contains_congr trail size⟩
  change (w'.trail + w'.slots.size).prev = (w.trail + w.slots.size).prev
  rw [trail, size]

/-- Rebuilt packets that are not ahead of the lead do not move the window. -/
theorem staysPut_repairs (defined : w.isDefined) {numbers : List SeqNum}
    (behind : ∀ s ∈ numbers, ¬ s.After w.lead) :
    w.StaysPut (w.run (Op.repairs g decode now numbers)) := by
  induction numbers generalizing w with
  | nil => exact .refl w
  | cons s numbers ih =>
    rw [Op.repairs]
    split
    · exact .refl w
    next payload _ =>
      have still := still_pushRepair (p := ⟨g.tsi, s, none, payload⟩) defined
        (behind s (List.mem_cons_self ..)) .parity now
      have first : w.StaysPut (w.step (.pushRepair ⟨g.tsi, s, none, payload⟩ .parity now)).1 :=
        staysPut_of_frame still
      have defined' := (congrArg Frame.isDefined still).trans defined
      -- The packets after it meet the lead that the first one met.
      refine first.trans (ih defined' fun x hx => ?_)
      rw [first.lead]
      exact behind x (List.mem_cons_of_mem s hx)

/-- What was reported missing is not ahead of the lead, however far the window went since, if it did
not go around. -/
theorem not_after_of_reported (h : w.Sound) (reported : w.repairableGroup? s = some g)
    (near : w.lead.gap w'.lead < 1073741824) : ∀ x ∈ g.missing, ¬ x.After w'.lead := by
  intro x hx after
  obtain ⟨hpos, hle⟩ := h.gap_next_of_contains (contains_of_mem_missing reported hx)
  have hahead := after_lead_iff.1 after
  change w.next.prev.gap w'.next.prev < _ at near
  have hx := x.toNat_lt
  have hn := w.next.toNat_lt
  have hn' := w'.next.toNat_lt
  simp only [SeqNum.prev, SeqNum.gap_eq, SeqNum.toNat_sub] at hpos hle hahead near
  omega

/-- A window in which a group can be repaired has a place. -/
theorem isDefined_of_repairable (h : w.Sound) (hg : w.repairableGroup? s = some g) : w.isDefined := by
  obtain ⟨x, hx⟩ := List.exists_mem_of_length_pos (repairableGroup?_spec hg).1
  obtain ⟨slot, found⟩ := SlotRing.exists_get? (contains_of_mem_missing hg hx)
  exact h.isDefined_of_get? found

/-- A late or failing repair of a group that was reported is harmless, whatever happened since. It does
not move the window and evicts nothing, unless the lead moved by a quarter of the number space or
more meanwhile. An answer counts the slots that were filled. If the decoder fails, what was rebuilt
before is taken in, in order, and nothing else. A window that is gone does not change. -/
theorem late_repair_harmless (tsi : Tsi) (config : ValidConfig) (ops : List Op) (op : Op)
    {g : Group} (reported : (((create tsi config).run ops).step op).2.reported = some g)
    (more : List Op) (decode : Decoder) (now : Timestamp) :
    let reporting := (create tsi config).run (ops ++ [op])
    let w := reporting.run more
    let (after, answer) := w.repair g decode now
    (reporting.lead.gap w.lead < 1073741824 → w.StaysPut after) ∧
      (∀ n, answer = .ok n → after.counters.fecRepairs = w.counters.fecRepairs + n) ∧
      (∀ (rebuilt : List (SeqNum × ByteArray)) (s : SeqNum) (rest : List SeqNum) (text : String),
        g.missing = rebuilt.map Prod.fst ++ s :: rest → (∀ m ∈ rebuilt, decode g m.1 = .ok m.2) →
          decode g s = .error text →
          after = w.run (rebuilt.map fun m => .pushRepair ⟨g.tsi, m.1, none, m.2⟩ .parity now) ∧
            (w.isGone = false → answer = .error (.decoder text))) ∧
      (w.isGone → after = w) := by
  intro reporting w
  obtain ⟨live, part, stays, s, hgroup⟩ := exists_of_reported reported
  obtain ⟨_, hmoves, -⟩ :=
    step_spec_of_ne (sound_run (sound_create tsi config) live).1 live part stays
  rw [← run_concat] at hmoves hgroup
  have hsound : reporting.Sound := hmoves.sound (sound_run (sound_create tsi config) live).1
  have same := w.run_repairs g decode now g.missing
  refine ⟨fun near => ?_, fun n done => fecRepairs_repairMembers done,
    fun rebuilt s rest text missing decoded fails => ⟨?_, fun live => ?_⟩,
    fun gone => (repairMembers_of_gone gone g decode now g.missing).1⟩
  · cases hlive : w.isGone with
    | true =>
      rw [(repairMembers_of_gone hlive g decode now g.missing).1]
      exact .refl w
    | false =>
      have defined := (sound_run hsound hlive).2.isDefined (isDefined_of_repairable hsound hgroup)
      have put : w.StaysPut (w.run (Op.repairs g decode now g.missing)) :=
        staysPut_repairs defined (not_after_of_reported hsound hgroup near)
      rwa [same] at put
  · rw [missing, repairs_of_fails decoded fails] at same
    exact (congrArg (fun numbers => (repairMembers g decode now numbers w).1) missing).trans same.symm
  · exact (congrArg (fun numbers => (repairMembers g decode now numbers w).2) missing).trans
      (repairMembers_of_fails (sound_run hsound live).1 live decoded fails)

/-- Both members of a group are missing when it is reported; then the window leaves the first one
behind and gives up the second one. -/
def overtaken : List Op := [.markLost 1, smallPush 4 none 5]

/-- Rebuilds the first member and fails at the second one. -/
def failsAtSecond : Decoder := fun _ s => if s = 0 then .ok ⟨#[7]⟩ else .error "no data"

theorem late_repair_harmless_small :
    ∃ g, (((create smallTsi smallConfig).run [smallParity 0]).step (smallParity 1)).2.reported = some g ∧
      let reporting := (create smallTsi smallConfig).run ([smallParity 0] ++ [smallParity 1])
      let w := reporting.run overtaken
      let (after, answer) := w.repair g failsAtSecond 0
      reporting.lead.gap w.lead = 3 ∧ w.StaysPut after ∧ g.missing = [0, 1] ∧
        after = w.run [.pushRepair ⟨g.tsi, 0, none, ⟨#[7]⟩⟩ .parity 0] ∧
        answer = .error (.decoder "no data") := by
  obtain ⟨g, hg, hmissing⟩ : ∃ g, (((create smallTsi smallConfig).run [smallParity 0]).step
      (smallParity 1)).2.reported = some g ∧ g.missing = [0, 1] := ⟨_, by rfl, by rfl⟩
  obtain ⟨hput, -, hfails, -⟩ :=
    late_repair_harmless smallTsi smallConfig [smallParity 0] (smallParity 1) hg overtaken
      failsAtSecond 0
  have near : ((create smallTsi smallConfig).run ([smallParity 0] ++ [smallParity 1])).lead.gap
      (((create smallTsi smallConfig).run ([smallParity 0] ++ [smallParity 1])).run overtaken).lead =
        3 := by decide +kernel
  obtain ⟨hafter, hanswer⟩ := hfails [(0, ⟨#[7]⟩)] 1 [] "no data" hmissing (by simp [failsAtSecond]) rfl
  exact ⟨g, hg, near, hput (by rw [near]; decide), hmissing, hafter, hanswer (by decide +kernel)⟩

end ReliableMulticast.Window
