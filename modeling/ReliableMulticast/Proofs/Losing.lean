import Mathlib.Data.List.Pairwise
import Mathlib.Data.List.TakeWhile
import ReliableMulticast.Proofs.Sound

/-!
# Losing an APDU keeps a window sound

The loss of one slot spreads over a range of numbers ahead of `commitTrail` (`mem_spread`) that
covers every APDU of the readable part it touches (`mem_spread_of_readable`). So each whole APDU of
the readable part is given up with all its slots or not at all, and the part stays settled.
-/

namespace ReliableMulticast

/-! ### Settled stretches after a loss -/

/-- How a slot may change when the APDUs whose first numbers are in `gone` are given up: data of one
of these is lost, data of another APDU stays, and a slot that was lost before stays as it is. -/
structure Slot.Spared (gone : SeqNum → Prop) (old new : Slot) : Prop where
  eq_or_lost : new = old ∨ new.state = .lost
  keeps : old.state = .lost → new = old
  loses : ∀ f, old.state.hasData → old.fragment = some f → gone f.apduFirst → new.state = .lost
  spares : ∀ f, old.state.hasData → old.fragment = some f → ¬ gone f.apduFirst → new = old

theorem Settled.of_forall_lost {slots : List Slot} (h : ∀ slot ∈ slots, slot.state = .lost)
    (s : SeqNum) : Settled s slots := by
  induction slots generalizing s with
  | nil => exact .nil
  | cons slot slots ih =>
    exact .lost (h slot (List.mem_cons_self ..)) (ih (fun x hx => h x (List.mem_cons_of_mem _ hx)) _)

/-- A whole APDU is given up completely or not at all. -/
theorem WholeApdu.spared {gone : SeqNum → Prop} {s : SeqNum} {apdu apdu' : List Slot}
    (h : WholeApdu s apdu) (hs : List.Forall₂ (Slot.Spared gone) apdu apdu') :
    apdu' = apdu ∨ ∀ slot ∈ apdu', slot.state = .lost := by
  cases h with
  | single held alone =>
    obtain ⟨new, rest, hnew, hnil, rfl⟩ := List.forall₂_cons_left_iff.1 hs
    obtain rfl := List.forall₂_nil_left_iff.1 hnil
    rcases hnew.eq_or_lost with rfl | hl
    · exact .inl rfl
    · exact .inr fun slot hm => by rwa [List.mem_singleton.1 hm]
  | fragmented fragments =>
    have member : ∀ slot ∈ apdu, slot.state.hasData ∧
        ∃ f, slot.fragment = some f ∧ f.apduFirst = s := by
      intro slot hm
      obtain ⟨hd, hf⟩ := fragments.held slot hm
      obtain ⟨f, hf, hfirst⟩ := Option.any_eq_true _ _ |>.1 hf
      exact ⟨hd, f, hf, by simpa using hfirst⟩
    clear fragments
    by_cases hg : gone s
    · right
      induction hs with
      | nil => exact fun slot hm => absurd hm List.not_mem_nil
      | cons hnew _ ih =>
        obtain ⟨hd, f, hf, rfl⟩ := member _ (List.mem_cons_self ..)
        intro slot hm
        rcases List.mem_cons.1 hm with rfl | hm
        · exact hnew.loses f hd hf hg
        · exact ih (fun slot hs => member slot (List.mem_cons_of_mem _ hs)) slot hm
    · left
      induction hs with
      | nil => rfl
      | cons hnew _ ih =>
        obtain ⟨hd, f, hf, rfl⟩ := member _ (List.mem_cons_self ..)
        rw [hnew.spares f hd hf hg, ih fun slot hs => member slot (List.mem_cons_of_mem _ hs)]

theorem Settled.spared {s : SeqNum} {slots : List Slot} (h : Settled s slots)
    (gone : SeqNum → Prop) : ∀ {slots'}, List.Forall₂ (Slot.Spared gone) slots slots' →
      Settled s slots' := by
  induction h with
  | nil =>
    intro slots' hs
    obtain rfl := List.forall₂_nil_left_iff.1 hs
    exact .nil
  | lost lost _ ih =>
    intro slots' hs
    obtain ⟨new, rest', hnew, hrest, rfl⟩ := List.forall₂_cons_left_iff.1 hs
    obtain rfl := hnew.keeps lost
    exact .lost lost (ih hrest)
  | @apdu s apdu rest whole _ ih =>
    intro slots' hs
    obtain ⟨apdu', rest', rfl, hapdu, hrest⟩ :
        ∃ apdu' rest', slots' = apdu' ++ rest' ∧ List.Forall₂ (Slot.Spared gone) apdu apdu' ∧
          List.Forall₂ (Slot.Spared gone) rest rest' := by
      refine ⟨slots'.take apdu.length, slots'.drop apdu.length,
        (List.take_append_drop ..).symm, ?_, ?_⟩
      · simpa using List.forall₂_take apdu.length hs
      · simpa using List.forall₂_drop apdu.length hs
    have hlen : apdu.length = apdu'.length := hapdu.length_eq
    rcases whole.spared hapdu with rfl | hlost
    · exact .apdu whole (ih hrest)
    · refine Settled.append (.of_forall_lost hlost s) ?_
      rw [← hlen]
      exact ih hrest

/-- In a settled stretch the data of a fragment follows the start of its APDU without a break. -/
theorem Settled.exists_first {s : SeqNum} {slots : List Slot} (h : Settled s slots) :
    ∀ {k : Nat} {slot : Slot} {f : Fragment}, slots[k]? = some slot → slot.state.hasData →
      slot.fragment = some f → ∃ j m : Nat, k = j + m ∧ f.apduFirst = s + j ∧
        ∀ i, i ≤ m → ∃ slot' : Slot, slots[j + i]? = some slot' ∧
          slot'.isFragmentOf f.apduFirst := by
  induction h with
  | nil =>
    intro k slot f hk
    cases hk
  | lost lost _ ih =>
    intro k slot f hk hd hf
    cases k with
    | zero =>
      obtain rfl := Option.some.inj hk
      exact absurd lost (SlotState.hasData_iff.1 hd).1
    | succ k =>
      obtain ⟨j, m, rfl, hfirst, hfragments⟩ := ih hk hd hf
      refine ⟨j + 1, m, by omega, by rw [hfirst, SeqNum.next_add], fun i hi => ?_⟩
      rw [Nat.add_right_comm, List.getElem?_cons_succ]
      exact hfragments i hi
  | @apdu s apdu rest whole _ ih =>
    intro k slot f hk hd hf
    by_cases hlt : k < apdu.length
    · rw [List.getElem?_append_left hlt] at hk
      cases whole with
      | single held alone =>
        obtain rfl := List.mem_singleton.1 (List.mem_of_getElem? hk)
        rw [alone] at hf
        cases hf
      | fragmented fragments =>
        have hfirst : f.apduFirst = s := by
          have := (fragments.held slot (List.mem_of_getElem? hk)).2
          simpa [Slot.isFragmentOf, hf] using this
        refine ⟨0, k, (Nat.zero_add k).symm, by rw [hfirst, SeqNum.add_zero], fun i hi => ?_⟩
        have hi : i < apdu.length := by omega
        refine ⟨apdu[i], ?_, ?_⟩
        · rw [Nat.zero_add, List.getElem?_append_left hi, List.getElem?_eq_getElem hi]
        · rw [hfirst]
          exact (fragments.held _ (List.getElem_mem hi)).2
    · rw [List.getElem?_append_right (by omega)] at hk
      obtain ⟨j, m, hkm, hfirst, hfragments⟩ := ih hk hd hf
      refine ⟨apdu.length + j, m, by omega, by rw [hfirst, SeqNum.add_add], fun i hi => ?_⟩
      obtain ⟨slot', hslot', hf'⟩ := hfragments i hi
      refine ⟨slot', ?_, hf'⟩
      rw [List.getElem?_append_right (by omega), ← hslot']
      congr 1
      omega

/-! ### The range of a loss -/

theorem SeqNum.gap_lt_of_not_before {a b : SeqNum} (h : ¬ a.Before b) : b.gap a < 2147483648 := by
  have ha := a.toNat_lt
  have hb := b.toNat_lt
  rw [before_iff] at h
  simp only [gap_eq] at h ⊢
  omega

/-- The numbers of a range stand in the order of their steps from its start. -/
theorem SeqNum.pairwise_run (s : SeqNum) {n : Nat} (hn : n ≤ 4294967296) :
    (s.run n).Pairwise fun x y => s.gap x ≤ s.gap y := by
  rw [List.pairwise_iff_getElem]
  intro i j hi hj hij
  rw [length_run] at hi hj
  have elem : ∀ {k} (hk : k < (s.run n).length), k < n → (s.run n)[k] = s + k := by
    intro k hk hkn
    exact Option.some.inj (List.getElem?_eq_getElem hk ▸ getElem?_run hkn)
  rw [elem _ hi, elem _ hj, gap_add s (by omega), gap_add s (by omega)]
  omega

theorem SeqNum.mem_takeWhile_run {p : SeqNum → Bool} {s : SeqNum} {m n : Nat} (hm : m < n)
    (h : ∀ k, k ≤ m → p (s + k)) : s + m ∈ (s.run n).takeWhile p := by
  induction m generalizing s n with
  | zero =>
    obtain ⟨n, rfl⟩ := Nat.exists_eq_add_of_lt hm
    have h0 := h 0 (Nat.le_refl 0)
    rw [SeqNum.add_zero] at h0 ⊢
    rw [Nat.zero_add, run, List.takeWhile_cons_of_pos h0]
    exact List.mem_cons_self ..
  | succ m ih =>
    obtain ⟨n, rfl⟩ : ∃ k, n = k + 1 := ⟨n - 1, by omega⟩
    have h0 := h 0 (Nat.zero_le _)
    rw [SeqNum.add_zero] at h0
    rw [run, List.takeWhile_cons_of_pos h0, ← next_add]
    refine List.mem_cons_of_mem _ (ih (by omega) fun k hk => ?_)
    rw [next_add]
    exact h (k + 1) (by omega)

namespace Window

/-- The number lies from `commitTrail` to the lead. -/
def Ahead (w : Window) (x : SeqNum) : Prop := w.commitTrail.gap x < w.commitTrail.gap w.next

theorem Sound.ahead_iff {w : Window} (h : w.Sound) {x : SeqNum} :
    w.Ahead x ↔ w.place w.commitTrail ≤ w.place x ∧ w.place x < w.slots.size := by
  have hct := h.place_commitTrail_le
  have hsize := h.size_le
  have ht := w.trail.toNat_lt
  have hc := w.commitTrail.toNat_lt
  have hx := x.toNat_lt
  rw [Ahead, h.gap_next]
  simp only [place, SeqNum.gap_eq] at *
  omega

/-- A number in the window that is not far from the reader is ahead of it. -/
theorem Sound.ahead_of_near {w : Window} (h : w.Sound) {x : SeqNum} {slot : Slot}
    (found : w.slots.get? x = some slot) (near : w.commitTrail.gap x < 3221225472) : w.Ahead x := by
  have hlt := place_lt_of_get? found
  have hsize := h.size_le
  have hct := h.place_commitTrail_le
  refine h.ahead_iff.2 ⟨?_, hlt⟩
  by_contra hbehind
  have hback : x.gap w.commitTrail = w.place w.commitTrail - w.place x := gap_eq_place_sub (by omega)
  have hx := x.toNat_lt
  have ht := w.commitTrail.toNat_lt
  simp only [SeqNum.gap_eq] at near hback
  omega

/-- The slots from the front on lie ahead of the reader, so none of them was delivered. -/
theorem Sound.of_mem_front {w : Window} (h : w.Sound) {n k : Nat} {slot : Slot}
    (inside : w.place w.commitLead + n ≤ w.slots.size)
    (hk : (w.slots.slice w.commitLead n)[k]? = some slot) :
    k < n ∧ w.slots.get? (w.commitLead + k) = some slot ∧ w.Ahead (w.commitLead + k) ∧
      slot.state.delivered = false := by
  have hct := h.commitTrail_le
  have hsize := h.size_le
  have hlt : k < n := by
    have := (List.getElem?_eq_some_iff.1 hk).1
    rwa [SlotRing.length_slice inside] at this
  have found := (SlotRing.getElem?_slice inside hlt).symm.trans hk
  have hplace := w.place_add (x := w.commitLead) (n := k) (by omega)
  exact ⟨hlt, found, h.ahead_iff.2 ⟨by omega, place_lt_of_get? found⟩,
    (h.slots found).undelivered (by omega)⟩

theorem slotIs_giveUpSlot_isFragmentOf (w : Window) (s x first : SeqNum) :
    (w.giveUpSlot s).slotIs x (·.isFragmentOf first) = w.slotIs x (·.isFragmentOf first) := by
  rw [slotIs, slotIs, get?_giveUpSlot]
  split
  · cases w.slots.get? x with
    | none => rfl
    | some slot => simp only [Option.map_some, Option.any_some, Slot.isFragmentOf,
        Slot.fragment_lose]
  · rfl

theorem next_of_frame_eq {w w' : Window} (h : w'.frame = w.frame) : w'.next = w.next := by
  have htrail : w'.slots.trail = w.slots.trail := congrArg Frame.trail h
  have hsize : w'.slots.size = w.slots.size := congrArg Frame.size h
  rw [next, next, SlotRing.next, SlotRing.next, htrail, hsize]

theorem ahead_of_frame_eq {w w' : Window} {s : SeqNum} (hf : w'.frame = w.frame) (hs : w.Ahead s) :
    w'.Ahead s := by
  rw [Ahead, next_of_frame_eq hf, show w'.commitTrail = w.commitTrail from
    congrArg Frame.commitTrail hf]
  exact hs

theorem gap_spreadStart_lt (w : Window) (first : SeqNum) :
    w.commitTrail.gap (w.spreadStart first) < 2147483648 := by
  unfold spreadStart
  split
  · rw [SeqNum.gap_self]
    decide
  next h => exact SeqNum.gap_lt_of_not_before h

/-- The search for the end of a loss finds fragments after `s` in their order, among them each one up
to which no other data comes, and ends at the last of them. -/
theorem exists_spreadEnd (w : Window) (first s : SeqNum) :
    ∃ found : List SeqNum, w.spreadEnd first s = found.getLastD s ∧
      found.Sublist ((w.spreadStart first).upTo w.next) ∧
      (∀ x ∈ found, x.After s ∧ w.slotIs x (·.isFragmentOf first)) ∧
      ∀ m, m < (w.spreadStart first).steps w.next →
        (∀ k, k ≤ m → w.slotIs (w.spreadStart first + k) (·.isFragmentOf first)) →
        (w.spreadStart first + m).After s → w.spreadStart first + m ∈ found := by
  have hnext := next_of_frame_eq (frame_giveUpSlot w s)
  refine ⟨_, by rw [spreadEnd, lastFragment, hnext],
    List.filter_sublist.trans (List.takeWhile_sublist _), ?_, ?_⟩
  · intro x hx
    have := (List.mem_filter.1 hx).2
    simpa only [Bool.and_eq_true, decide_eq_true_eq, slotIs_giveUpSlot_isFragmentOf] using this
  · intro m hm hfragments hafter
    have fragment : ∀ k, k ≤ m →
        (w.giveUpSlot s).slotIs (w.spreadStart first + k) (·.isFragmentOf first) := by
      intro k hk
      rw [slotIs_giveUpSlot_isFragmentOf]
      exact hfragments k hk
    refine List.mem_filter.2 ⟨SeqNum.mem_takeWhile_run hm fun k hk => ?_, ?_⟩
    · obtain ⟨slot, hslot, hf⟩ := (Option.any_eq_true _ _).1 (fragment k hk)
      exact (Option.any_eq_true _ _).2 ⟨slot, hslot, by rw [hf, Bool.true_or]⟩
    · rw [decide_eq_true hafter, Bool.true_and]
      exact fragment m (Nat.le_refl m)

theorem spreadEnd_eq_or_mem (w : Window) (first s : SeqNum) :
    w.spreadEnd first s = s ∨
      (w.spreadEnd first s).After s ∧ w.spreadEnd first s ∈ (w.spreadStart first).upTo w.next ∧
        w.slotIs (w.spreadEnd first s) (·.isFragmentOf first) := by
  obtain ⟨found, he, hsub, hfound, -⟩ := w.exists_spreadEnd first s
  rw [he, List.getLastD_eq_getLast?]
  cases hl : found.getLast? with
  | none => exact .inl rfl
  | some x =>
    have hx := List.mem_of_getLast? hl
    obtain ⟨hafter, hfragment⟩ := hfound x hx
    exact .inr ⟨hafter, hsub.mem hx, hfragment⟩

variable {w : Window} {first s x : SeqNum}

/-- The range from the start of a spreading loss up to `commitTrail + n`, by steps from
`commitTrail`. -/
theorem mem_spreadStart_upTo {n : Nat} (hn : n ≤ 2147483648) :
    x ∈ (w.spreadStart first).upTo (w.commitTrail + n) ↔
      w.commitTrail.gap (w.spreadStart first) ≤ w.commitTrail.gap x ∧ w.commitTrail.gap x < n := by
  have hstart := w.gap_spreadStart_lt first
  have hx := w.commitTrail.gap_lt x
  have key := SeqNum.mem_upTo_add (a := w.commitTrail) (x := x)
    (m := w.commitTrail.gap (w.spreadStart first)) (n := n) (by omega) (by omega)
  rw [SeqNum.add_gap] at key
  rw [key]
  constructor
  · rintro ⟨k, hk, hkn, rfl⟩
    rw [SeqNum.gap_add _ (by omega)]
    exact ⟨hk, hkn⟩
  · rintro ⟨hk, hkn⟩
    exact ⟨_, hk, hkn, (SeqNum.add_gap _ _).symm⟩

theorem Sound.gap_next_le (h : w.Sound) : w.commitTrail.gap w.next ≤ 1073741824 := by
  have := h.size_le
  rw [h.gap_next]
  omega

theorem ahead_spreadEnd (first : SeqNum) (h : w.Sound) (hs : w.Ahead s) : w.Ahead (w.spreadEnd first s) := by
  rcases w.spreadEnd_eq_or_mem first s with he | hm
  · rwa [he]
  · have := h.gap_next_le
    rw [← SeqNum.add_gap w.commitTrail w.next, mem_spreadStart_upTo (by omega)] at hm
    exact hm.2.1.2

theorem mem_spread (h : w.Sound) (hs : w.Ahead s) :
    x ∈ w.spread first s ↔
      w.commitTrail.gap (w.spreadStart first) ≤ w.commitTrail.gap x ∧
        w.commitTrail.gap x ≤ w.commitTrail.gap (w.spreadEnd first s) := by
  have hlast := ahead_spreadEnd first h hs
  have hnext := h.gap_next_le
  unfold Ahead at hlast
  have he : (w.spreadEnd first s).next =
      w.commitTrail + (w.commitTrail.gap (w.spreadEnd first s) + 1) := by
    rw [← SeqNum.add_next, SeqNum.add_gap]
  rw [spread, he, mem_spreadStart_upTo (by omega), Nat.lt_succ_iff]

/-- A loss spreads over numbers ahead of `commitTrail` only. -/
theorem ahead_of_mem_spread (h : w.Sound) (hs : w.Ahead s) (hx : x ∈ w.spread first s) :
    w.Ahead x :=
  Nat.lt_of_le_of_lt ((mem_spread h hs).1 hx).2 (ahead_spreadEnd first h hs)

/-- A loss spreads over all fragments that follow the start of their APDU without a break. -/
theorem mem_spread_of_fragments (h : w.Sound) (hs : w.Ahead s) (hfirst : w.Ahead first) {m : Nat}
    (hm : w.commitTrail.gap first + m < w.commitTrail.gap w.next)
    (hfragments : ∀ k, k ≤ m → w.slotIs (first + k) (·.isFragmentOf first)) :
    first + m ∈ w.spread first s := by
  have hnext := h.gap_next_le
  have hstart : w.spreadStart first = first := by
    have hp := h.ahead_iff.1 hfirst
    rw [spreadStart, if_neg]
    rw [h.before_iff (by omega) h.place_commitTrail_le]
    omega
  have hgap : w.commitTrail.gap (first + m) = w.commitTrail.gap first + m :=
    SeqNum.gap_add_right (by omega)
  have hahead : w.Ahead (first + m) := by
    rw [Ahead, hgap]
    exact hm
  refine (mem_spread h hs).2 ⟨by rw [hstart, hgap]; omega, ?_⟩
  by_cases hafter : (first + m).After s
  · -- the search finds `first + m` and ends no earlier
    obtain ⟨found, he, hsub, -, hfound⟩ := w.exists_spreadEnd first s
    rw [hstart] at hsub hfound
    have hsteps : first.steps w.next = w.commitTrail.gap w.next - w.commitTrail.gap first := by
      have := SeqNum.steps_add w.commitTrail (m := w.commitTrail.gap first)
        (n := w.commitTrail.gap w.next) (by omega) (by omega)
      rwa [SeqNum.add_gap, SeqNum.add_gap] at this
    have hmem := hfound m (by omega) hfragments hafter
    have hne := List.ne_nil_of_mem hmem
    have hsorted := (SeqNum.pairwise_run first (by omega)).sublist hsub
    have hle := hsorted.rel_getLast_of_rel_getLast_getLast hmem (Nat.le_refl _)
    obtain ⟨k, hk, hlast⟩ := SeqNum.mem_run.1 (hsub.mem (List.getLast_mem hne))
    rw [hlast, SeqNum.gap_add _ (by omega), SeqNum.gap_add _ (by omega)] at hle
    rw [he, List.getLastD_eq_getLast?, List.getLast?_eq_some_getLast hne, Option.getD_some, hlast,
      hgap, SeqNum.gap_add_right (by omega)]
    omega
  · -- the search ends at `s` or later
    have hend := h.ahead_iff.1 (ahead_spreadEnd first h hs)
    have hsplace := h.ahead_iff.1 hs
    have hmplace := h.ahead_iff.1 hahead
    rw [SeqNum.After, h.before_iff (by omega) (by omega)] at hafter
    rw [gap_eq_place_sub hmplace.1, gap_eq_place_sub hend.1]
    rcases w.spreadEnd_eq_or_mem first s with he | ⟨he, -⟩
    · rw [he]
      omega
    · rw [SeqNum.After, h.before_iff (by omega) (by omega)] at he
      omega

/-! ### Soundness -/

/-- The fragments of the readable part that belong to a lost APDU are all in the range of the loss. -/
theorem mem_spread_of_readable (h : w.Sound) (hs : w.Ahead s) {slot : Slot} {f : Fragment}
    (hx : w.commitTrail.gap x < w.commitTrail.gap w.commitLead)
    (hslot : w.slots.get? x = some slot) (hd : slot.state.hasData) (hf : slot.fragment = some f) :
    x ∈ w.spread f.apduFirst s := by
  have hct := h.commitTrail_le
  have hcl := h.commitLead_le
  have hread := h.gap_readable
  have hnext := h.gap_next
  have hsize := h.size_le
  have elem : ∀ {k}, k < w.commitTrail.gap w.commitLead →
      w.readable[k]? = w.slots.get? (w.commitTrail + k) := by
    intro k hk
    refine SlotRing.getElem?_slice ?_ hk
    change w.place w.commitTrail + _ ≤ _
    omega
  have hk : w.readable[w.commitTrail.gap x]? = some slot := by
    rw [elem hx, SeqNum.add_gap, hslot]
  obtain ⟨j, m, hjm, hfirst, hfragments⟩ := h.settled.exists_first hk hd hf
  have hgap : w.commitTrail.gap f.apduFirst = j := by
    rw [hfirst, SeqNum.gap_add _ (by omega)]
  have hxm : x = f.apduFirst + m := by
    rw [hfirst, SeqNum.add_add, ← hjm, SeqNum.add_gap]
  rw [hxm]
  refine mem_spread_of_fragments h hs (by unfold Ahead; omega) (by omega) fun k hk => ?_
  obtain ⟨slot', hslot', hf'⟩ := hfragments k hk
  rw [elem (by omega), ← SeqNum.add_add, ← hfirst] at hslot'
  rw [slotIs, hslot', Option.any_some]
  exact hf'

/-- A slot without fragment is given up alone. -/
theorem spared_giveUpSlot (hnone : (w.slots.get? s).bind Slot.fragment = none) {slot : Slot}
    (hslot : w.slots.get? x = some slot) :
    ∃ new, (w.giveUpSlot s).slots.get? x = some new ∧ slot.Spared (fun _ => False) new := by
  rw [get?_giveUpSlot, hslot]
  by_cases hx : x = s
  · rw [if_pos hx]
    rw [← hx, hslot, Option.bind_some] at hnone
    refine ⟨slot.lose, rfl, .inr slot.state_lose, fun hl => if_pos hl, fun _ _ _ hg => hg.elim, ?_⟩
    intro f _ hf
    rw [hnone] at hf
    cases hf
  · rw [if_neg hx]
    exact ⟨slot, rfl, .inl rfl, fun _ => rfl, fun _ _ _ hg => hg.elim, fun _ _ _ _ => rfl⟩

/-- A fragment is given up with all of its APDU and with no data of another one. -/
theorem spared_loseApdu (h : w.Sound) (hs : w.Ahead s) {f : Fragment}
    (hsome : (w.slots.get? s).bind Slot.fragment = some f) {slot : Slot}
    (hx : w.commitTrail.gap x < w.commitTrail.gap w.commitLead)
    (hslot : w.slots.get? x = some slot) :
    ∃ new, (w.loseApdu s).slots.get? x = some new ∧ slot.Spared (· = f.apduFirst) new := by
  rw [get?_loseApdu_of_some hsome, get?_giveUpSlot, hslot]
  have loseWith_lost : ∀ {old : Slot}, old.state = .lost → old.loseWith f.apduFirst = old := by
    intro old hl
    rcases old.loseWith_eq f.apduFirst with he | he
    · exact he
    · rw [he, Slot.lose, if_pos hl]
  by_cases hxs : x = s
  · have hf : slot.fragment = some f := by
      rwa [← hxs, hslot, Option.bind_some] at hsome
    refine ⟨slot.lose, ?_, .inr slot.state_lose, fun hl => if_pos hl,
      fun _ _ _ _ => slot.state_lose, ?_⟩
    · rw [if_pos hxs, Option.map_some, Option.map_some, loseWith_lost slot.state_lose, ite_self]
    · intro g _ hg hne
      rw [hf] at hg
      exact absurd (congrArg Fragment.apduFirst (Option.some.inj hg)).symm hne
  · rw [if_neg hxs]
    by_cases hmem : x ∈ w.spread f.apduFirst s
    · rw [if_pos hmem, Option.map_some]
      refine ⟨_, rfl, ?_, fun hl => loseWith_lost hl, ?_, ?_⟩
      · rcases slot.loseWith_eq f.apduFirst with he | he
        · exact .inl he
        · exact .inr (by rw [he, slot.state_lose])
      · intro g hd hg hfirst
        have : slot.isFragmentOf f.apduFirst := by
          simp [Slot.isFragmentOf, hg, hfirst]
        rw [Slot.loseWith, this, Bool.true_or, if_pos rfl, slot.state_lose]
      · intro g hd hg hne
        have : slot.isFragmentOf f.apduFirst = false := by
          simp [Slot.isFragmentOf, hg, hne]
        rw [Slot.loseWith, this, (SlotState.hasData_iff.1 hd).2]
        rfl
    · rw [if_neg hmem]
      refine ⟨slot, rfl, .inl rfl, fun _ => rfl, ?_, fun _ _ _ _ => rfl⟩
      intro g hd hg hfirst
      exact absurd (hfirst ▸ mem_spread_of_readable h hs hx hslot hd hg) hmem

/-- A window stays sound when a slot ahead of `commitTrail` is lost with its APDU. -/
theorem Sound.loseApdu (h : w.Sound) (hs : w.Ahead s) : (w.loseApdu s).Sound := by
  have hread : w.slots.trail.gap w.commitTrail + w.commitTrail.gap w.commitLead ≤ w.slots.size := by
    have := h.commitTrail_le
    have := h.commitLead_le
    rw [h.gap_readable]
    change w.place w.commitTrail + _ ≤ _
    omega
  have hgap : ∀ {k}, k < w.commitTrail.gap w.commitLead →
      w.commitTrail.gap (w.commitTrail + k) = k := by
    intro k hk
    have := w.commitTrail.gap_lt w.commitLead
    exact SeqNum.gap_add _ (by omega)
  have fits_giveUpSlot : ∀ {x slot}, (w.giveUpSlot s).slots.get? x = some slot →
      slot.Fits (w.place x < w.place w.commitTrail) := by
    intro x slot hslot
    rw [get?_giveUpSlot] at hslot
    split at hslot
    · obtain ⟨old, hold, rfl⟩ := Option.map_eq_some_iff.1 hslot
      exact (h.slots hold).lose
    · exact h.slots hslot
  cases hf : (w.slots.get? s).bind Slot.fragment with
  | none =>
    rw [loseApdu_of_none hf]
    refine h.of_frame_eq (frame_giveUpSlot w s) fits_giveUpSlot (h.settled.spared (fun _ => False) ?_)
    exact SlotRing.forall₂_slice hread fun k slot _ hslot => spared_giveUpSlot hf hslot
  | some f =>
    refine h.of_frame_eq (frame_loseApdu w s) ?_ (h.settled.spared (· = f.apduFirst) ?_)
    · intro x slot hslot
      rw [get?_loseApdu_of_some hf] at hslot
      split at hslot
      · obtain ⟨old, hold, rfl⟩ := Option.map_eq_some_iff.1 hslot
        exact (fits_giveUpSlot hold).loseWith f.apduFirst
      · exact fits_giveUpSlot hslot
    · refine SlotRing.forall₂_slice hread fun k slot hk hslot => ?_
      exact spared_loseApdu h hs hf (by rwa [hgap hk]) hslot

end Window

end ReliableMulticast
