import ReliableMulticast.Proofs.Standing

/-!
# Waiting behind the sender's trail

What lies behind the sender's trail cannot be repaired, so nothing should wait for it. The trail is
compared with the one that was reported last, and that comparison is right as long as the two are
close: as long as the number after the lead has never been before the reported trail (`InSight`),
nothing behind that trail is missing (`Abreast`), and a status report ends all waiting behind the trail
that it tells (`not_before_trail_of_missing`). Only reports move the trail that is kept, so the data of a
long stream can leave it out of sight, and then a report ends nothing (`waits_behind_trail`).
-/

namespace ReliableMulticast.Window

variable {w w' v : Window} {s x trail lead : SeqNum} {slot : Slot} {now : Timestamp}

/-- The number after the lead does not look older than the trail that the sender reported. -/
def InSight (w : Window) : Prop := ¬ w.next.Before w.senderTrail

instance (w : Window) : Decidable w.InSight := inferInstanceAs (Decidable (¬ _))

/-- Nothing is missing from before the trail that the sender reported. -/
def Abreast (w : Window) : Prop := ∀ x, w.IsMissing x → x.gap w.next ≤ w.senderTrail.gap w.next

namespace Abreast

/-! ### What keeps up with the sender -/

theorem of_none (h : ∀ x, w.slots.get? x = none) : w.Abreast := by
  rintro x ⟨slot, found, -⟩
  cases (h x).symm.trans found

theorem stands (h : w.Abreast) (hst : w.Stands w') : w'.Abreast := by
  intro x hx
  rw [hst.next, hst.senderTrail]
  exact h x (hst.missing x hx)

/-- New numbers lie behind the lead, and so does the trail as long as it is in sight. -/
theorem proceeds (h : w.Abreast) (sight : w.InSight) (hp : w.Proceeds w') : w'.Abreast := by
  obtain ⟨n, hn, hnext⟩ := hp.next
  have hsight := SeqNum.gap_lt_of_not_before sight
  have htrail : w.senderTrail.gap w'.next = w.senderTrail.gap w.next + n := by
    rw [hnext, SeqNum.gap_add_right (by omega)]
  intro x hx
  rw [hp.senderTrail, htrail]
  rcases hp.missing x hx with missing | new
  · have hback := h x missing
    rw [hnext, SeqNum.gap_add_right (by omega)]
    omega
  · rw [hnext, SeqNum.gap_add w.next (by omega)] at new
    rw [hnext]
    omega

/-! ### Packets -/

theorem ensureDefined (h : w.Abreast) (sight : w.InSight) (s : SeqNum) :
    (w.ensureDefined s).Abreast ∧ (w.ensureDefined s).InSight := by
  unfold Window.ensureDefined
  split
  · exact ⟨h, sight⟩
  · refine ⟨of_none (SlotRing.get?_reset w.slots s), fun behind => ?_⟩
    have hself : (w.define s).next = s := SeqNum.add_zero s
    rw [hself, SeqNum.before_iff] at behind
    have hzero : s.gap (w.define s).senderTrail = 0 := SeqNum.gap_self s
    omega

theorem acceptData (h : w.Abreast) (sight : w.InSight) (hs : w.Sound) (p : Packet)
    (source : Option RepairSource) (now : Timestamp) : (w.acceptData p source now).1.Abreast := by
  cases hm : w.isMalformed p with
  | true =>
    rw [acceptData_of_malformed hm]
    exact h.stands (.of_slots_eq rfl rfl)
  | false =>
    obtain ⟨-, hdefined, hsound, -⟩ := ensureDefined_spec hs p.sequence
    obtain ⟨hplaced, sight⟩ := h.ensureDefined sight p.sequence
    have htakes := takes_acceptData hm source now
    generalize w.acceptData p source now = answer at htakes
    generalize w.ensureDefined p.sequence = w at *
    cases htakes with
    | behind | lost => exact hplaced
    | duplicate => exact hplaced.stands (.of_slots_eq rfl rfl)
    | ahead after =>
      exact hplaced.proceeds sight ((proceeds_extend hsound hdefined after now).stands (stands_resolve _))
    | missing => exact hplaced.stands ((stands_fillSlot p source now).trans (stands_resolve _))

theorem acceptParity (h : w.Abreast) (sight : w.InSight) (hs : w.Sound) (p : Packet)
    (now : Timestamp) : (w.acceptParity p now).1.Abreast := by
  unfold Window.acceptParity
  split
  · exact h.stands (.of_slots_eq rfl rfl)
  · obtain ⟨-, hdefined, hsound, -⟩ := ensureDefined_spec hs (w.groupFirst p.sequence)
    obtain ⟨hplaced, sight⟩ := h.ensureDefined sight (w.groupFirst p.sequence)
    simp only
    generalize w.ensureDefined (w.groupFirst p.sequence) = w at *
    split
    · exact hplaced
    · split
      next hafter =>
        exact hplaced.proceeds sight
          ((proceeds_advanceLead hsound hdefined hafter now).stands (stands_storeParity _ p _))
      · exact hplaced.stands (stands_storeParity w p _)

end Abreast

/-! ### Status reports -/

/-- A number that is given up is not missing any more. -/
theorem not_isMissing_loseAll {numbers : List SeqNum} (hx : x ∈ numbers) :
    ¬ (numbers.foldl loseApdu w).IsMissing x := by
  induction numbers generalizing w with
  | nil => cases hx
  | cons s numbers ih =>
    rw [List.foldl_cons]
    rcases List.mem_cons.1 hx with rfl | hx
    · intro missing
      -- Whatever is given up after it, the number is not missing from then on.
      obtain ⟨new, hnew, pending⟩ := (Stands.foldl stands_loseApdu numbers _).missing x missing
      obtain ⟨old, hold, -⟩ := (w.stands_loseApdu x).missing x ⟨new, hnew, pending⟩
      obtain ⟨lost, hlost, hstate⟩ := get?_loseApdu_self hold
      obtain rfl := Option.some.inj (hlost.symm.trans hnew)
      rw [hstate] at pending
      cases pending
    · exact ih hx

theorem stands_losePending (w : Window) (s : SeqNum) : w.Stands (w.losePending s) :=
  .foldl stands_loseApdu _ w

/-- Once everything was given up before a trail that does not lie beyond the lead, what is still missing
is not before that trail. -/
theorem Sound.gap_le_of_losePending (h : w.Sound) (sight : ¬ w.next.Before trail)
    (missing : (w.losePending trail).IsMissing x) : x.gap w.next ≤ trail.gap w.next := by
  by_contra hbehind
  obtain ⟨slot, found, pending⟩ := (w.stands_losePending trail).missing x missing
  have ahead : w.commitTrail.gap x < w.commitTrail.gap w.next := h.ahead_of_pending found pending
  have hnear := h.gap_next_le
  have hback : x.gap w.next = w.commitTrail.gap w.next - w.commitTrail.gap x :=
    SeqNum.gap_split (Nat.le_of_lt ahead)
  have htrail : trail = w.commitTrail + (w.commitTrail.gap w.next - trail.gap w.next) :=
    SeqNum.eq_add_sub (by rw [SeqNum.add_gap, SeqNum.add_gap]) (by omega)
  have hgap : w.commitTrail.gap trail = w.commitTrail.gap w.next - trail.gap w.next := by
    conv_lhs => rw [htrail]
    exact SeqNum.gap_add _ (by omega)
  have hmem : x ∈ w.commitTrail.upTo trail := by
    rw [SeqNum.upTo_eq_run (by omega), SeqNum.mem_run]
    exact ⟨w.commitTrail.gap x, by omega, (SeqNum.add_gap ..).symm⟩
  refine not_isMissing_loseAll (List.mem_filter.2 ⟨?_, ?_⟩) missing
  · rwa [show (if trail.After w.next then w.next else trail) = trail from if_neg sight]
  · rw [slotIs, found]
    exact pending

/-- A reported trail after the one that is kept takes its place, and another changes nothing. -/
theorem followTrail_cases (hs : w.Sound) (trail : SeqNum) :
    (∃ v : Window, v.Sound ∧ v.senderTrail = trail ∧ v.next = w.next ∧
      w.followTrail trail = v.losePending trail) ∨
    ¬ trail.After w.senderTrail ∧ w.followTrail trail = w := by
  unfold followTrail
  split
  next =>
    have heard : w.Move [] { w with senderTrail := trail } := .aside rfl rfl rfl rfl rfl
    exact .inl ⟨_, heard.sound hs, rfl, rfl, rfl⟩
  next after => exact .inr ⟨after, rfl⟩

theorem next_followTrail (hs : w.Sound) (trail : SeqNum) : (w.followTrail trail).next = w.next := by
  rcases followTrail_cases hs trail with ⟨v, -, -, hnext, he⟩ | ⟨-, he⟩ <;> rw [he]
  exact (v.stands_losePending trail).next.trans hnext

/-- After a report the trail that is kept is the reported one or a later one. -/
theorem gap_senderTrail_le (hs : w.Sound) (sight : (w.followTrail trail).InSight) :
    (w.followTrail trail).senderTrail.gap w.next ≤ trail.gap w.next := by
  unfold InSight at sight
  rw [next_followTrail hs] at sight
  rcases followTrail_cases hs trail with ⟨v, -, hsender, -, he⟩ | ⟨after, he⟩ <;> rw [he] at sight ⊢
  · rw [(v.stands_losePending trail).senderTrail, hsender]
  · have hsight := SeqNum.gap_lt_of_not_before sight
    have hkept := SeqNum.gap_lt_of_not_before after
    have := SeqNum.gap_trans (a := trail) (b := w.senderTrail) (c := w.next) (by omega)
    omega

namespace Abreast

theorem followTrail (h : w.Abreast) (hs : w.Sound) (sight : (w.followTrail trail).InSight) :
    (w.followTrail trail).Abreast := by
  rcases followTrail_cases hs trail with ⟨v, hsound, hsender, -, he⟩ | ⟨-, he⟩ <;> rw [he] at sight ⊢
  · have hst := v.stands_losePending trail
    have hkept := hst.senderTrail.trans hsender
    unfold InSight at sight
    unfold Abreast
    rw [hst.next, hkept] at sight ⊢
    exact fun x hx => hsound.gap_le_of_losePending sight hx
  · exact h

end Abreast

/-- A report that is not malformed leaves a window without slots, if it only gave it its place, or one
that followed the lead and then the trail of the sender. -/
theorem acceptStatus_cases (hs : w.Sound) (wellFormed : ¬ lead.next.Before trail) (size shift : Nat)
    (now : Timestamp) :
    (∀ x, (w.acceptStatus trail lead size shift now).1.slots.get? x = none) ∨
    ∃ v, w.Proceeds v ∧ v.Sound ∧
      (w.acceptStatus trail lead size shift now).1 = (v.followTrail trail).resolve := by
  have announced := w.stands_announceGroups size shift
  have hsound := hs.announceGroups size shift
  unfold acceptStatus
  rw [if_neg wellFormed]
  simp only
  generalize w.announceGroups size shift = u at *
  split
  · exact .inl (SlotRing.get?_reset u.slots lead.next)
  next hd =>
    have defined : u.isDefined := by simpa using hd
    obtain ⟨_, hmoves, -⟩ := moves_followLead hsound defined lead now
    have hled := hmoves.sound hsound
    have proceeds : w.Proceeds (u.followLead lead now).1 := by
      unfold followLead
      split
      next after => exact announced.trans_proceeds (proceeds_advanceLead hsound defined after now)
      · exact announced.proceeds
    generalize u.followLead lead now = followed at *
    exact .inr ⟨followed.1, proceeds, hled, rfl⟩

/-- What is missing after a report that is not malformed is not before the trail that it tells. -/
theorem Abreast.gap_le_of_acceptStatus (h : w.Abreast) (sight : w.InSight) (hs : w.Sound)
    (wellFormed : ¬ lead.next.Before trail) {size shift : Nat} {now : Timestamp}
    (hw : (w.acceptStatus trail lead size shift now).1 = w') (sight' : w'.InSight)
    (missing : w'.IsMissing x) :
    x.gap w'.next ≤ w'.senderTrail.gap w'.next ∧ w'.senderTrail.gap w'.next ≤ trail.gap w'.next := by
  rcases acceptStatus_cases hs wellFormed size shift now with hnone | ⟨v, hp, hsound, he⟩
  · obtain ⟨slot, found, -⟩ := missing
    cases (hw ▸ hnone x).symm.trans found
  · obtain rfl := he.symm.trans hw
    have hst := stands_resolve (v.followTrail trail)
    unfold InSight at sight'
    rw [hst.next, hst.senderTrail] at sight' ⊢
    refine ⟨(h.proceeds sight hp).followTrail hsound sight' x (hst.missing x missing), ?_⟩
    have hle := gap_senderTrail_le hsound sight'
    rwa [next_followTrail hsound]

/-! ### Histories -/

namespace Abreast

theorem acceptStatus (h : w.Abreast) (sight : w.InSight) (hs : w.Sound) (trail lead : SeqNum)
    (size shift : Nat) (now : Timestamp)
    (sight' : (w.acceptStatus trail lead size shift now).1.InSight) :
    (w.acceptStatus trail lead size shift now).1.Abreast := by
  by_cases malformed : lead.next.Before trail
  · rw [acceptStatus_of_malformed malformed]
    exact h.stands (.of_slots_eq rfl rfl)
  · exact fun x hx => (h.gap_le_of_acceptStatus sight hs malformed rfl sight' hx).1

theorem forSession (h : w.Abreast) (live : w.isGone = false) (tsi : Tsi)
    {op : Window → Window × Receipt} (taken : (op w).1.Abreast) : (w.forSession tsi op).1.Abreast := by
  unfold Window.forSession
  split
  · exact h
  · rwa [whileLive_of_live live]

/-- A step that leaves the lead in sight of the sender's trail leaves nothing missing behind it. -/
theorem step (h : w.Abreast) (sight : w.InSight) (hs : w.Sound) (timed : w.Timed [])
    (live : w.isGone = false) {op : Op} (part : op.isPart) (sight' : (w.step op).1.InSight) :
    (w.step op).1.Abreast := by
  cases op with
  | push p now => exact h.forSession live p.tsi (h.acceptData sight hs p none now)
  | pushRepair p source now => exact h.forSession live p.tsi (h.acceptData sight hs p (some source) now)
  | pushParity p now => exact h.forSession live p.tsi (h.acceptParity sight hs p now)
  | updateStatus trail lead size shift now =>
    simp only [Window.step, updateStatus, whileLive_of_live live] at sight' ⊢
    exact h.acceptStatus sight hs trail lead size shift now sight'
  | confirmNak s sent now =>
    simp only [Window.step, confirmNak, whileLive_of_live live]
    exact h.stands (stands_acceptNcf hs s sent now)
  | markLost s =>
    simp only [Window.step, markLost, whileLive_of_live live]
    exact h.stands (w.stands_acceptLoss s)
  | sweep now =>
    rw [step_sweep live]
    exact h.stands (stands_sweepAll hs timed now)
  | read count =>
    rw [step_read live]
    exact h.stands (w.stands_readReady count)
  | release =>
    simp only [Window.step, release, whileLive_of_live live]
    exact h.stands (stands_releaseUpTo _ w)
  | free =>
    simp only [Window.step, free, live, Bool.false_eq_true, if_false]
    exact h.stands w.stands_freeDelivered
  | shutdown =>
    simp only [Window.step, shutdown, live, Bool.false_eq_true, if_false]
    exact of_none (SlotRing.get?_reset w.slots w.trail)
  | repair => cases part

end Abreast

/-- As long as the lead stays in sight of the sender's trail, nothing behind that trail is missing. -/
theorem abreast_run (tsi : Tsi) (config : ValidConfig) {ops : List Op}
    (hparts : ∀ op ∈ ops, op.isPart)
    (sight : ∀ before, before <+: ops → ((create tsi config).run before).InSight) :
    ((create tsi config).run ops).Abreast := by
  induction ops using List.reverseRecOn with
  | nil => exact .of_none (get?_create tsi config)
  | append_singleton ops op ih =>
    have h := ih (fun x hx => hparts x (List.mem_append_left _ hx)) fun before hbefore =>
      sight before (hbefore.trans (List.prefix_append ops [op]))
    have part := hparts op (by simp)
    have sight' := sight (ops ++ [op]) (List.prefix_refl _)
    rw [run_concat] at sight' ⊢
    cases live : ((create tsi config).run ops).isGone with
    | true => rwa [step_of_gone live part]
    | false =>
      exact h.step (sight ops (List.prefix_append ops [op])) (sound_run (sound_create tsi config) live).1
        (timed_run tsi config ops) live part sight'

theorem Sound.not_before_of_gap_le (h : w.Sound) (inside : w.place trail ≤ w.slots.size)
    (missing : w.IsMissing x) (hle : x.gap w.next ≤ trail.gap w.next) : ¬ x.Before trail := by
  obtain ⟨slot, found, -⟩ := missing
  have hlt := place_lt_of_get? found
  have hback : x.gap w.next = w.place w.next - w.place x := gap_eq_place_sub (by rw [place_next]; omega)
  have htrail : trail.gap w.next = w.place w.next - w.place trail :=
    gap_eq_place_sub (by rwa [place_next])
  rw [place_next] at hback htrail
  rw [h.before_iff (Nat.le_of_lt hlt) inside]
  omega

/-- A status report ends all waiting before the trail that it tells, as long as the number after the lead
has never been before the sender's trail. -/
theorem not_before_trail_of_missing (tsi : Tsi) (config : ValidConfig) (ops : List Op)
    (trail lead : SeqNum) (size shift : Nat) (now : Timestamp)
    (sight : ∀ before, before <+: parts (ops ++ [.updateStatus trail lead size shift now]) →
      ((create tsi config).run before).InSight)
    (accepted : (((create tsi config).run ops).updateStatus trail lead size shift now).2.outcome ≠
      .malformedApdu) :
    let after := (((create tsi config).run ops).updateStatus trail lead size shift now).1
    after.place trail ≤ after.slots.size → ∀ x, after.IsMissing x → ¬ x.Before trail := by
  intro after inside x missing
  have hafter : (create tsi config).run (ops ++ [.updateStatus trail lead size shift now]) = after :=
    run_concat ..
  have hparts : parts (ops ++ [.updateStatus trail lead size shift now]) =
      parts ops ++ [.updateStatus trail lead size shift now] := parts_append ..
  cases live : ((create tsi config).run ops).isGone with
  | true =>
    have same : after = (create tsi config).run ops := congrArg Prod.fst (if_pos live)
    obtain ⟨slot, found, -⟩ := missing
    rw [same] at found
    cases (get?_of_gone tsi config live x).symm.trans found
  | false =>
    have hreport : ((create tsi config).run ops).updateStatus trail lead size shift now =
        ((create tsi config).run ops).acceptStatus trail lead size shift now := whileLive_of_live live
    have wellFormed : ¬ lead.next.Before trail := by
      intro malformed
      rw [hreport, acceptStatus_of_malformed malformed] at accepted
      exact accepted rfl
    have hs := (sound_run (sound_create tsi config) live).1
    have h := abreast_run tsi config isPart_of_mem_parts fun before hbefore =>
      sight before (hparts ▸ hbefore.trans (List.prefix_append ..))
    have sight₀ := sight (parts ops) (hparts ▸ List.prefix_append ..)
    have sight' := sight _ (List.prefix_refl _)
    rw [run_parts] at h sight₀ sight'
    rw [hafter] at sight'
    obtain ⟨_, hmoves, -⟩ := moves_acceptStatus hs trail lead size shift now
    have hw : (((create tsi config).run ops).acceptStatus trail lead size shift now).1 = after :=
      congrArg Prod.fst hreport.symm
    obtain ⟨hkept, htold⟩ := h.gap_le_of_acceptStatus sight₀ hs wellFormed hw sight' missing
    exact (hw ▸ hmoves.sound hs).not_before_of_gap_le inside missing (Nat.le_trans hkept htold)

/-- The second packet is missing, and the sender tells that it keeps the third one and what follows. -/
def reportedHistory : List Op := [smallPush 0 none 1, smallPush 3 none 2]

theorem not_before_trail_of_missing_small :
    let w := (create smallTsi smallConfig).run reportedHistory
    let after := (w.updateStatus 2 3 0 0 0).1
    w.slotIs 1 (·.state.repairPending) ∧ after.slotIs 2 (·.state.repairPending) ∧
      ∀ x, after.IsMissing x → ¬ x.Before 2 := by
  refine ⟨by decide +kernel, by decide +kernel, ?_⟩
  refine not_before_trail_of_missing smallTsi smallConfig reportedHistory 2 3 0 0 0 ?_
    (by decide +kernel) (by decide +kernel)
  intro before hbefore
  have sight : ∀ n ≤ 3, ((create smallTsi smallConfig).run
      ((parts (reportedHistory ++ [.updateStatus 2 3 0 0 0])).take n)).InSight := by
    decide +kernel
  rw [List.prefix_iff_eq_take.1 hbefore]
  exact sight before.length hbefore.length_le

/-- The data of a long stream leave the sender's trail out of sight, without a report that moves it. -/
def longHistory : List Op :=
  [smallPush 0 none 1, smallPush 2147483647 none 2, smallPush 2147483650 none 3]

/-- Out of sight of the sender's trail, a report leaves packets missing that cannot be repaired. -/
theorem waits_behind_trail :
    let w := (create smallTsi smallConfig).run longHistory
    let trail : SeqNum := 2147483650
    let after := (w.updateStatus trail trail 0 0 0).1
    w.isGone = false ∧ w.isDefined ∧ ¬ w.InSight ∧
      (w.updateStatus trail trail 0 0 0).2.outcome = .ok ∧ trail.gap trail.next ≤ 1073741824 ∧
      after.place trail ≤ after.slots.size ∧
      after.slotIs 2147483648 (·.state.repairPending) ∧ (2147483648 : SeqNum).Before trail := by
  decide +kernel

end ReliableMulticast.Window
