import Mathlib.Tactic.Tauto
import ReliableMulticast.Proofs.History

/-!
# In order, without gaps, at most once

An account assigns every number that `commitTrail` has passed, told by its place from where the
window began, to the span of one message or to the lost ones. A history has such an account
(`exists_audit`): the messages in it are those handed out, in order, and the lost numbers are as
many as were told to the reader or wait to be told. The losses told are the sum of the counts that
the reads handed out, as long as none of these runs over (`sum_lost_of_fits`). Losses are counted when
they happen, so the count of losses is that number and the slots given up ahead of `commitTrail`.
-/

namespace ReliableMulticast

/-- How many numbers the messages span. -/
def spanned (messages : List Message) : Nat := (messages.map Message.packets).sum

theorem spanned_append (messages more : List Message) :
    spanned (messages ++ more) = spanned messages + spanned more := by
  simp [spanned]

/-- The place lies in the span of a message. -/
def Covered (spans : List (Nat × Message)) (x : Nat) : Prop :=
  ∃ s ∈ spans, s.1 ≤ x ∧ x < s.1 + s.2.packets

theorem covered_append {spans spans' : List (Nat × Message)} {x : Nat} :
    Covered (spans ++ spans') x ↔ Covered spans x ∨ Covered spans' x := by
  simp only [Covered, List.mem_append, or_and_right, exists_or]

/-- An account of the numbers from place `p` up to place `q`, as counted from `d`: the spans of
messages, each with the place of its first number, and the places of lost numbers. -/
structure Account (d : SeqNum) (p q : Nat) (spans : List (Nat × Message)) (lost : List Nat) :
    Prop where
  first : ∀ s ∈ spans, s.2.first = d + s.1
  bounds : ∀ s ∈ spans, p ≤ s.1 ∧ 0 < s.2.packets ∧ s.1 + s.2.packets ≤ q
  /-- Spans are disjoint and stand in the order of their messages. -/
  increasing : spans.Pairwise fun a b => a.1 + a.2.packets ≤ b.1
  lost_bounds : ∀ x ∈ lost, p ≤ x ∧ x < q
  lost_increasing : lost.Pairwise (· < ·)
  /-- A number is lost if it is in no span, and only then. -/
  lost_iff : ∀ x, p ≤ x → x < q → (x ∈ lost ↔ ¬ Covered spans x)
  total : q = p + spanned (spans.map Prod.snd) + lost.length
  /-- A message is taken where the messages and losses before it end. -/
  placed : ∀ (i : Nat) (s : Nat × Message), spans[i]? = some s →
    s.1 = p + spanned ((spans.take i).map Prod.snd) + lost.countP (· < s.1)

namespace Account

variable {d : SeqNum} {p q r : Nat} {spans spans' : List (Nat × Message)} {lost lost' : List Nat}

theorem le (h : Account d p q spans lost) : p ≤ q := by
  have := h.total
  omega

theorem nil (d : SeqNum) (p : Nat) : Account d p p [] [] where
  first := fun _ hs => absurd hs List.not_mem_nil
  bounds := fun _ hs => absurd hs List.not_mem_nil
  increasing := .nil
  lost_bounds := fun _ hx => absurd hx List.not_mem_nil
  lost_increasing := .nil
  lost_iff := fun x hp hq => absurd (Nat.lt_of_le_of_lt hp hq) (Nat.lt_irrefl p)
  total := rfl
  placed := fun i s hs => by cases hs

theorem message {m : Message} (first : m.first = d + p) (pos : 0 < m.packets) :
    Account d p (p + m.packets) [(p, m)] [] where
  first := by
    rintro s hs
    obtain rfl := List.mem_singleton.1 hs
    exact first
  bounds := by
    rintro s hs
    obtain rfl := List.mem_singleton.1 hs
    exact ⟨Nat.le_refl p, pos, Nat.le_refl _⟩
  increasing := List.pairwise_singleton _ _
  lost_bounds := fun _ hx => absurd hx List.not_mem_nil
  lost_increasing := .nil
  lost_iff := by
    intro x hp hq
    simp [Covered, hp, hq]
  total := by simp [spanned]
  placed := by
    intro i s hs
    cases i with
    | zero =>
      obtain rfl := Option.some.inj hs
      rfl
    | succ i => cases hs

theorem losses (d : SeqNum) (p n : Nat) : Account d p (p + n) [] (List.range' p n) where
  first := fun _ hs => absurd hs List.not_mem_nil
  bounds := fun _ hs => absurd hs List.not_mem_nil
  increasing := .nil
  lost_bounds := fun x hx => by simpa using hx
  lost_increasing := List.pairwise_lt_range' ..
  lost_iff := by
    intro x hp hq
    simp [Covered, hp, hq]
  total := by simp [spanned]
  placed := fun i s hs => by cases hs

/-- An account says nothing about the places before it. -/
theorem not_covered_of_lt (h : Account d p q spans lost) {x : Nat} (hx : x < p) :
    ¬ Covered spans x := by
  rintro ⟨s, hs, hle, -⟩
  have := (h.bounds s hs).1
  omega

theorem not_covered_of_le (h : Account d p q spans lost) {x : Nat} (hx : q ≤ x) :
    ¬ Covered spans x := by
  rintro ⟨s, hs, -, hlt⟩
  have := (h.bounds s hs).2.2
  omega

theorem countP_lost_of_le (h : Account d p q spans lost) {x : Nat} (hx : x ≤ p) :
    lost.countP (· < x) = 0 := by
  refine List.countP_eq_zero.2 fun y hy => ?_
  have := (h.lost_bounds y hy).1
  simp only [decide_eq_true_eq]
  omega

theorem countP_lost_of_ge (h : Account d p q spans lost) {x : Nat} (hx : q ≤ x) :
    lost.countP (· < x) = lost.length := by
  refine List.countP_eq_length.2 fun y hy => ?_
  have := (h.lost_bounds y hy).2
  simp only [decide_eq_true_eq]
  omega

/-- Accounts of two stretches, one after the other, are one account of both. -/
theorem append (h : Account d p q spans lost) (h' : Account d q r spans' lost') :
    Account d p r (spans ++ spans') (lost ++ lost') := by
  have hpq := h.le
  have hqr := h'.le
  refine ⟨?_, ?_, ?_, ?_, ?_, ?_, ?_, ?_⟩
  · intro s hs
    exact (List.mem_append.1 hs).elim (h.first s) (h'.first s)
  · intro s hs
    rcases List.mem_append.1 hs with hs | hs
    · have := h.bounds s hs
      omega
    · have := h'.bounds s hs
      omega
  · refine List.pairwise_append.2 ⟨h.increasing, h'.increasing, fun a ha b hb => ?_⟩
    have := (h.bounds a ha).2.2
    have := (h'.bounds b hb).1
    omega
  · intro x hx
    rcases List.mem_append.1 hx with hx | hx
    · have := h.lost_bounds x hx
      omega
    · have := h'.lost_bounds x hx
      omega
  · refine List.pairwise_append.2 ⟨h.lost_increasing, h'.lost_increasing, fun a ha b hb => ?_⟩
    have := (h.lost_bounds a ha).2
    have := (h'.lost_bounds b hb).1
    omega
  · intro x hp hr
    rw [covered_append, List.mem_append]
    by_cases hx : x < q
    · have hnot : x ∉ lost' := fun hm => by
        have := (h'.lost_bounds x hm).1
        omega
      rw [h.lost_iff x hp hx]
      have := h'.not_covered_of_lt hx
      tauto
    · have hnot : x ∉ lost := fun hm => hx (h.lost_bounds x hm).2
      rw [h'.lost_iff x (by omega) hr]
      have := h.not_covered_of_le (x := x) (by omega)
      tauto
  · have := h.total
    have := h'.total
    rw [List.map_append, spanned_append, List.length_append]
    omega
  · intro i s hs
    rw [List.countP_append]
    by_cases hi : i < spans.length
    · rw [List.getElem?_append_left hi] at hs
      have := (h.bounds s (List.mem_of_getElem? hs)).2
      rw [List.take_append_of_le_length (by omega), h'.countP_lost_of_le (by omega)]
      exact h.placed i s hs
    · rw [List.getElem?_append_right (by omega)] at hs
      have hbounds := h'.bounds s (List.mem_of_getElem? hs)
      have hplaced := h'.placed _ s hs
      have htotal := h.total
      rw [List.take_append, List.take_of_length_le (by omega), h.countP_lost_of_ge hbounds.1,
        List.map_append, spanned_append]
      omega

end Account

namespace Window

variable {w w' : Window} {notes : List Note}

/-! ### Accounts of moves -/

/-- The notes of a move account for the numbers that it passes. -/
theorem Move.account (hm : w.Move notes w') (h : w.Sound) {d : SeqNum} {p : Nat}
    (hct : w.commitTrail = d + p) :
    ∃ spans lost, Account d p (p + Note.advance notes) spans lost ∧
      spans.map Prod.snd = Note.messages notes ∧
      lost.length = Note.passes notes + Note.drops notes := by
  cases hm with
  | overrun => exact ⟨[], _, .losses d p 1, rfl, List.length_range'⟩
  | passLost => exact ⟨[], _, .losses d p 1, rfl, List.length_range'⟩
  | skip target =>
    have hadvance : Note.advance [.dropped (w.trail.gap target)] = w.trail.gap target :=
      Nat.zero_add _
    refine ⟨[], List.range' p (w.trail.gap target), ?_, rfl, ?_⟩
    · rw [hadvance]
      exact .losses d p _
    · exact List.length_range'.trans (Nat.zero_add _).symm
  | deliver count unread found held whole =>
    obtain ⟨-, hlength, hapdu, -⟩ := h.front_slice unread found held whole
    exact ⟨_, [], .message (m := (w.deliver count).2) hct (hlength ▸ hapdu.length_pos), rfl, rfl⟩
  | aside | refuse | regroup | define | addPlaceholder | addPacket | fill | wait | keep | lose
  | collapse | garble | orphan | reclaim | pass | report | retain | free => exact ⟨[], [], .nil d p, rfl, rfl⟩

theorem Moves.account (hm : w.Moves notes w') (h : w.Sound) (defined : w.isDefined) {d : SeqNum}
    {p : Nat} (hct : w.commitTrail = d + p) :
    ∃ spans lost, Account d p (p + Note.advance notes) spans lost ∧
      spans.map Prod.snd = Note.messages notes ∧
      lost.length = Note.passes notes + Note.drops notes := by
  induction hm generalizing p with
  | done => exact ⟨[], [], .nil d p, rfl, rfl⟩
  | next first _ ih =>
    obtain ⟨spans, lost, haccount, hspans, hlost⟩ := first.account h hct
    have hct' := first.commitTrail_eq h defined
    rw [hct, SeqNum.add_add] at hct'
    obtain ⟨spans', lost', haccount', hspans', hlost'⟩ :=
      ih (first.sound h) (first.keeps.isDefined defined) hct'
    refine ⟨spans ++ spans', lost ++ lost', ?_, ?_, ?_⟩
    · rw [Note.advance_append, ← Nat.add_assoc]
      exact haccount.append haccount'
    · rw [List.map_append, hspans, hspans', Note.messages_append]
    · rw [List.length_append, hlost, hlost', Note.passes_append, Note.drops_append]
      omega

/-! ### Accounts of histories -/

theorem delivered_concat (ops : List Op) (op : Op) :
    w.delivered (ops ++ [op]) = w.delivered ops ++ ((w.run ops).step op).2.messages := by
  rw [delivered_append]
  simp [delivered, record]

theorem told_concat (ops : List Op) (op : Op) :
    w.told (ops ++ [op]) = w.told ops + ((w.run ops).step op).2.losses := by
  rw [told_append]
  simp [told, record]

/-- The account of a history that starts at place `p` and leads to place `q`: its spans are those of
the messages handed out, its lost numbers were told or wait to be told, and the count of losses grew
by them and by the slots given up ahead. -/
structure Audit (w : Window) (ops : List Op) (d : SeqNum) (p q : Nat) (spans : List (Nat × Message))
    (lost : List Nat) : Prop where
  account : Account d p q spans lost
  messages : spans.map Prod.snd = w.delivered ops
  commitTrail : (w.run ops).commitTrail = d + q
  told : lost.length + w.unreportedLosses = w.told ops + (w.run ops).unreportedLosses
  losses : (w.run ops).counters.losses + w.lostAhead =
    w.counters.losses + (w.run ops).lostAhead + lost.length

/-- From a window that has its place on, a history accounts for all numbers that `commitTrail`
passes. -/
theorem exists_audit (h : w.Sound) (defined : w.isDefined) {d : SeqNum} {p : Nat}
    (hct : w.commitTrail = d + p) {ops : List Op} (hparts : ∀ op ∈ ops, op.isPart)
    (live : (w.run ops).isGone = false) (unsaturated : w.Unsaturated ops) :
    (w.run ops).isDefined ∧ ∃ q spans lost, w.Audit ops d p q spans lost := by
  refine (history_induction (motive := fun ops => w.Unsaturated ops →
    (w.run ops).isDefined ∧ ∃ q spans lost, w.Audit ops d p q spans lost)
    h ?_ ?_ hparts live).2 unsaturated
  · exact fun _ => ⟨defined, p, [], [], .nil d p, rfl, hct, rfl, rfl⟩
  · intro ops op notes hsound hmoves htells ih unsaturated
    rw [unsaturated_append] at unsaturated
    obtain ⟨hdefined, q, spans, lost, haudit⟩ := ih unsaturated.1
    obtain ⟨spans', lost', haccount', hspans', hlost'⟩ :=
      hmoves.account hsound hdefined haudit.commitTrail
    have hdrops := htells.drops_le hmoves hsound (run_concat w ops op ▸ unsaturated.2.1)
    have hunreported := hmoves.unreported_eq hsound hdrops
    have hcounted := hmoves.losses_eq hsound
    have htold := htells.told
    have hsofar := haudit.told
    have hlosses := haudit.losses
    refine ⟨hmoves.keeps.isDefined hdefined, _, _, _, haudit.account.append haccount', ?_, ?_, ?_,
      ?_⟩
    · rw [List.map_append, haudit.messages, hspans', htells.messages, delivered_concat]
    · rw [hmoves.commitTrail_eq hsound hdefined, haudit.commitTrail, SeqNum.add_add]
    · rw [told_concat, List.length_append]
      omega
    · rw [List.length_append]
      omega

theorem Audit.append {ops more : List Op} {d : SeqNum} {p q r : Nat}
    {spans spans' : List (Nat × Message)} {lost lost' : List Nat}
    (h : w.Audit ops d p q spans lost) (h' : (w.run ops).Audit more d q r spans' lost') :
    w.Audit (ops ++ more) d p r (spans ++ spans') (lost ++ lost') where
  account := h.account.append h'.account
  messages := by rw [List.map_append, h.messages, h'.messages, delivered_append]
  commitTrail := by rw [run_append, h'.commitTrail]
  told := by
    have := h.told
    have := h'.told
    rw [List.length_append, told_append, run_append]
    omega
  losses := by
    have := h.losses
    have := h'.losses
    rw [List.length_append, run_append]
    omega

/-! ### Where an account begins -/

/-- Nothing was read from a window so far, and it stands at its trail. -/
structure Fresh (w : Window) (ops : List Op) : Prop where
  messages : w.delivered ops = []
  told : w.told ops = 0
  unreported : (w.run ops).unreportedLosses = 0
  losses : (w.run ops).counters.losses = (w.run ops).lostAhead
  commitTrail : (w.run ops).commitTrail = (w.run ops).trail

theorem Fresh.concat {ops : List Op} {op : Op} (hfresh : w.Fresh ops) (h : (w.run ops).Sound)
    (undefined : (w.run ops).isDefined = false)
    (hmoves : (w.run ops).Moves notes (w.run (ops ++ [op])))
    (htells : (w.run ops).Tells op ((w.run ops).step op).2 notes) : w.Fresh (ops ++ [op]) := by
  obtain ⟨hmessages, htold⟩ := htells.blank undefined
  have hpasses := Note.passes_le_told notes
  have hdrops : Note.drops notes ≤ 0 := by
    simpa [maxJump, undefined] using htells.drops
  have hzero := hfresh.unreported
  have hunreported := hmoves.unreported_eq h (by unfold maxReported; omega)
  have hcounted := hmoves.losses_eq h
  have hlosses := hfresh.losses
  refine ⟨?_, ?_, by omega, by omega, ?_⟩
  · rw [delivered_concat, hfresh.messages, ← htells.messages, hmessages]
    rfl
  · rw [told_concat, hfresh.told, ← htells.told, htold]
  · exact hmoves.commitTrail_eq_trail h ⟨hmessages, by omega⟩ (.inl hfresh.commitTrail)

theorem fresh_create (tsi : Tsi) (config : ValidConfig) : (create tsi config).Fresh [] where
  messages := rfl
  told := rfl
  unreported := rfl
  losses := (lostAhead_of_empty (sound_create tsi config) rfl).symm
  commitTrail := rfl

/-- A history of a new window falls into one without a place, in which nothing is read, and one that
begins where the window was placed. -/
theorem exists_origin (tsi : Tsi) (config : ValidConfig) {ops : List Op}
    (hparts : ∀ op ∈ ops, op.isPart) (live : ((create tsi config).run ops).isGone = false) :
    if ((create tsi config).run ops).isDefined then
      ∃ before after, ops = before ++ after ∧ ((create tsi config).run before).isDefined ∧
        ((create tsi config).run before).Sound ∧ (create tsi config).Fresh before ∧
        (create tsi config).origin ops = ((create tsi config).run before).trail
    else
      (create tsi config).Fresh ops ∧ ∀ more,
        (create tsi config).origin (ops ++ more) = ((create tsi config).run ops).origin more := by
  generalize hw : create tsi config = w at *
  have hsound : w.Sound := hw ▸ sound_create tsi config
  have hfresh : w.Fresh [] := hw ▸ fresh_create tsi config
  have hundefined : w.isDefined = false := hw ▸ rfl
  refine (history_induction (motive := fun ops => if (w.run ops).isDefined then
      ∃ before after, ops = before ++ after ∧ (w.run before).isDefined ∧ (w.run before).Sound ∧
        w.Fresh before ∧ w.origin ops = (w.run before).trail
    else w.Fresh ops ∧ ∀ more, w.origin (ops ++ more) = (w.run ops).origin more)
    hsound ?_ ?_ hparts live).2
  · rw [show w.run [] = w from rfl, hundefined]
    exact ⟨hfresh, fun _ => rfl⟩
  · intro ops op notes h hmoves htells ih
    cases hd : (w.run ops).isDefined with
    | true =>
      rw [if_pos hd] at ih
      obtain ⟨before, after, rfl, hbefore, hsound, hfresh, horigin⟩ := ih
      rw [if_pos (hmoves.keeps.isDefined hd)]
      refine ⟨before, after ++ [op], List.append_assoc .., hbefore, hsound, hfresh, ?_⟩
      rw [origin_append_of_defined hd, horigin]
    | false =>
      rw [hd] at ih
      obtain ⟨hfresh, horigin⟩ := ih
      have hnext := hfresh.concat h hd hmoves htells
      have hplace : ∀ more, w.origin (ops ++ [op] ++ more) = (w.run (ops ++ [op])).origin more := by
        intro more
        rw [List.append_assoc, horigin, List.singleton_append, origin, hd, run_concat]
        rfl
      split
      next hdefined =>
        refine ⟨ops ++ [op], [], (List.append_nil _).symm, hdefined, hmoves.sound h, hnext, ?_⟩
        have := hplace []
        rwa [List.append_nil] at this
      · exact ⟨hnext, hplace⟩

/-- A history of a new window that got its place has an account from there on. -/
theorem exists_audit_create (tsi : Tsi) (config : ValidConfig) {ops : List Op}
    (hparts : ∀ op ∈ ops, op.isPart) (live : ((create tsi config).run ops).isGone = false)
    (defined : ((create tsi config).run ops).isDefined)
    (unsaturated : (create tsi config).Unsaturated ops) :
    ∃ q spans lost,
      (create tsi config).Audit ops ((create tsi config).origin ops) 0 q spans lost := by
  have hsplit := exists_origin tsi config hparts live
  rw [if_pos defined] at hsplit
  obtain ⟨before, after, rfl, hbefore, hsound, hfresh, horigin⟩ := hsplit
  rw [unsaturated_append] at unsaturated
  rw [run_append] at live
  obtain ⟨-, q, spans, lost, haudit⟩ := exists_audit hsound hbefore
    (d := (create tsi config).origin (before ++ after)) (p := 0)
    (by rw [horigin, hfresh.commitTrail, SeqNum.add_zero])
    (fun op hop => hparts op (List.mem_append_right before hop)) live unsaturated.2
  have hstart : (create tsi config).Audit before
      ((create tsi config).origin (before ++ after)) 0 0 [] [] := by
    refine ⟨.nil _ 0, hfresh.messages.symm, ?_, ?_, ?_⟩
    · rw [horigin, hfresh.commitTrail, SeqNum.add_zero]
    · rw [hfresh.told, hfresh.unreported]
      rfl
    · have hzero : (create tsi config).counters.losses = (create tsi config).lostAhead :=
        (fresh_create tsi config).losses
      rw [hfresh.losses, hzero]
      exact Nat.add_comm _ _
  exact ⟨q, _, _, hstart.append haudit⟩

/-! ### Delivery -/

/-- How far the reader came in the course of a history: over the numbers of all messages, over the
losses told, and over those that wait to be told. -/
def reach (w : Window) (ops : List Op) : Nat :=
  spanned (w.delivered ops) + w.told ops + (w.run ops).unreportedLosses

/-- An account from the beginning ends where the reader is. -/
theorem Audit.eq_reach {ops : List Op} {d : SeqNum} {q : Nat} {spans : List (Nat × Message)}
    {lost : List Nat} (h : w.Audit ops d 0 q spans lost) (hzero : w.unreportedLosses = 0) :
    q = w.reach ops := by
  have htotal := h.account.total
  have htold := h.told
  rw [h.messages] at htotal
  unfold reach
  omega

/-- The reader's place is where the messages handed out, the losses told and the losses to be told
end, and it only moves forward. Each message spans numbers of its own, from the place on to which
the messages and losses before it led, and what is in no span is lost once. -/
theorem delivered_in_order (tsi : Tsi) (config : ValidConfig) (ops more : List Op)
    (unsaturated : (create tsi config).Unsaturated (parts (ops ++ more)))
    (defined : ((create tsi config).run ops).isDefined)
    (live : ((create tsi config).run (ops ++ more)).isGone = false) :
    let w := create tsi config
    let d := w.origin (parts ops)
    let before := w.reach (parts ops)
    let after := w.reach (parts (ops ++ more))
    (w.run ops).commitTrail = d + before ∧ (w.run (ops ++ more)).commitTrail = d + after ∧
      before ≤ after ∧
      ∃ spans newSpans lost newLost,
        Account d 0 before spans lost ∧ spans.map Prod.snd = w.delivered (parts ops) ∧
        lost.length = w.told (parts ops) + (w.run ops).unreportedLosses ∧
        Account d before after newSpans newLost ∧
        newSpans.map Prod.snd = (w.run ops).delivered (parts more) ∧
        Account d 0 after (spans ++ newSpans) (lost ++ newLost) ∧
        (lost ++ newLost).length =
          w.told (parts (ops ++ more)) + (w.run (ops ++ more)).unreportedLosses := by
  intro w d before after
  have hlive := isGone_run_of_append live
  obtain ⟨hsound, -⟩ := sound_run (sound_create tsi config) hlive
  rw [parts_append, unsaturated_append] at unsaturated
  rw [run_append] at live
  have hrun : ∀ ops, w.run (parts ops) = w.run ops := w.run_parts
  obtain ⟨p, spans, lost, haudit⟩ := exists_audit_create tsi config isPart_of_mem_parts
    (by rwa [run_parts]) (by rwa [run_parts]) unsaturated.1
  obtain ⟨-, q, newSpans, newLost, hmore⟩ := exists_audit (by rwa [run_parts])
    (by rwa [run_parts]) haudit.commitTrail isPart_of_mem_parts
    (by rwa [run_parts, run_parts]) unsaturated.2
  have hall := haudit.append hmore
  rw [← parts_append] at hall
  obtain rfl : p = before := haudit.eq_reach rfl
  obtain rfl : q = after := hall.eq_reach rfl
  refine ⟨hrun ops ▸ haudit.commitTrail, hrun (ops ++ more) ▸ hall.commitTrail,
    hmore.account.le, spans, newSpans, lost, newLost, haudit.account, haudit.messages, ?_,
    hmore.account, ?_, hall.account, ?_⟩
  · rw [← hrun ops]
    exact haudit.told
  · rw [← hrun ops]
    exact hmore.messages
  · rw [← hrun (ops ++ more)]
    exact hall.told

/-- A message, a loss and a message that is evicted; then the window jumps over more numbers than it
holds. -/
def deliveryHistory : List Op :=
  [smallPush 4294967295 none 1, smallPush 1 none 2, .markLost 0, .read 1, smallPush 5 none 3]

def laterHistory : List Op := [.markLost 4, .read 9, smallPush 20 none 4, .read 9]

theorem delivered_in_order_small :
    (create smallTsi smallConfig).Unsaturated (parts (deliveryHistory ++ laterHistory)) ∧
      ((create smallTsi smallConfig).run deliveryHistory).commitTrail = 2 ∧
      ((create smallTsi smallConfig).run (deliveryHistory ++ laterHistory)).commitTrail =
        (create smallTsi smallConfig).origin (parts deliveryHistory) +
          (create smallTsi smallConfig).reach (parts (deliveryHistory ++ laterHistory)) :=
  ⟨by decide +kernel, by decide +kernel,
    (delivered_in_order smallTsi smallConfig deliveryHistory laterHistory (by decide +kernel)
      (by decide +kernel) (by decide +kernel)).2.1⟩

/-! ### Losses -/

/-- The places of the slots given up from `commitTrail` on, if that is at place `p`. -/
def lostPlaces (w : Window) (p : Nat) : List Nat :=
  ((List.range (w.commitTrail.gap w.next)).filter fun k =>
    (w.slots.get? (w.commitTrail + k)).any Slot.isLost).map (p + ·)

theorem length_lostPlaces (w : Window) (p : Nat) : (w.lostPlaces p).length = w.lostAhead := by
  rw [lostPlaces, List.length_map, ← List.countP_eq_length_filter, lostAhead, unread,
    SlotRing.countP_slice]

theorem le_of_mem_lostPlaces {p x : Nat} (hx : x ∈ w.lostPlaces p) : p ≤ x := by
  obtain ⟨k, -, rfl⟩ := List.mem_map.1 hx
  exact Nat.le_add_right p k

theorem pairwise_lostPlaces (w : Window) (p : Nat) : (w.lostPlaces p).Pairwise (· < ·) := by
  refine List.pairwise_map.2 ((List.pairwise_lt_range.filter _).imp fun hab => ?_)
  exact Nat.add_lt_add_left hab p

/-- The count of losses is what the reader was told, what waits to be told, and the slots given up
from `commitTrail` on. So many different numbers were lost, and no message has any of them. -/
theorem losses_counted_once (tsi : Tsi) (config : ValidConfig) (ops : List Op)
    (unsaturated : (create tsi config).Unsaturated (parts ops))
    (live : ((create tsi config).run ops).isGone = false) :
    let w := create tsi config
    (w.run ops).counters.losses =
        w.told (parts ops) + (w.run ops).unreportedLosses + (w.run ops).lostAhead ∧
      ((w.run ops).isDefined → ∃ spans lost,
        Account (w.origin (parts ops)) 0 (w.reach (parts ops)) spans lost ∧
        spans.map Prod.snd = w.delivered (parts ops) ∧
        (lost ++ (w.run ops).lostPlaces (w.reach (parts ops))).Nodup ∧
        (lost ++ (w.run ops).lostPlaces (w.reach (parts ops))).length =
          (w.run ops).counters.losses ∧
        ∀ x ∈ lost ++ (w.run ops).lostPlaces (w.reach (parts ops)), ¬ Covered spans x) := by
  intro w
  have hrun : w.run (parts ops) = w.run ops := w.run_parts ops
  have hlive : (w.run (parts ops)).isGone = false := hrun ▸ live
  have hzero : w.lostAhead = 0 := lostAhead_of_empty (sound_create tsi config) rfl
  cases hd : (w.run (parts ops)).isDefined with
  | false =>
    have horigin := exists_origin tsi config isPart_of_mem_parts hlive
    rw [show (((create tsi config).run (parts ops)).isDefined) = false from hd] at horigin
    have hfresh : w.Fresh (parts ops) := horigin.1
    have hlosses := hfresh.losses
    have hunreported := hfresh.unreported
    have htold := hfresh.told
    rw [hrun] at hlosses hunreported hd
    refine ⟨by omega, fun hdefined => ?_⟩
    rw [hd] at hdefined
    cases hdefined
  | true =>
    obtain ⟨q, spans, lost, haudit⟩ :=
      exists_audit_create tsi config isPart_of_mem_parts hlive hd unsaturated
    obtain rfl : q = w.reach (parts ops) := haudit.eq_reach rfl
    have hlosses : (w.run (parts ops)).counters.losses + w.lostAhead =
        0 + (w.run (parts ops)).lostAhead + lost.length := haudit.losses
    have htold : lost.length + 0 = w.told (parts ops) + (w.run (parts ops)).unreportedLosses :=
      haudit.told
    rw [hrun] at hlosses htold
    refine ⟨by omega, fun _ => ⟨spans, lost, haudit.account, haudit.messages, ?_, ?_, ?_⟩⟩
    · refine List.Pairwise.imp (R := (· < ·)) (fun hab => Nat.ne_of_lt hab) ?_
      refine List.pairwise_append.2 ⟨haudit.account.lost_increasing, pairwise_lostPlaces _ _,
        fun a ha b hb => ?_⟩
      exact Nat.lt_of_lt_of_le (haudit.account.lost_bounds a ha).2 (le_of_mem_lostPlaces hb)
    · rw [List.length_append, length_lostPlaces]
      omega
    · intro x hx
      rcases List.mem_append.1 hx with hx | hx
      · have hbounds := haudit.account.lost_bounds x hx
        exact (haudit.account.lost_iff x hbounds.1 hbounds.2).1 hx
      · exact haudit.account.not_covered_of_le (le_of_mem_lostPlaces hx)

/-- Two losses told, one to be told, and one in a slot ahead. -/
def lossHistory : List Op :=
  deliveryHistory ++ [.read 9, .markLost 3, smallPush 6 none 4]

theorem losses_counted_once_small :
    (create smallTsi smallConfig).Unsaturated (parts lossHistory) ∧
      ((create smallTsi smallConfig).run lossHistory).counters.losses = 4 ∧
      ((create smallTsi smallConfig).run lossHistory).counters.losses =
        (create smallTsi smallConfig).told (parts lossHistory) +
          ((create smallTsi smallConfig).run lossHistory).unreportedLosses +
          ((create smallTsi smallConfig).run lossHistory).lostAhead :=
  ⟨by decide +kernel, by decide +kernel,
    (losses_counted_once smallTsi smallConfig lossHistory (by decide +kernel)
      (by decide +kernel)).1⟩

end Window

end ReliableMulticast
