import Mathlib.Data.List.Forall2
import ReliableMulticast.SlotRing.Lemmas
import ReliableMulticast.Window.Resolution

/-!
# Stretches of numbers and of slots

A window compares only numbers that lie close together, and close numbers are best written as one
base plus an offset: `a + m` and `a + n` stand in the order of `m` and `n` as long as these differ by
less than half of the number space (`before_add_iff`). `slice` is the list of the slots of a stretch
of a ring, which turns statements about the places of a window into statements about lists.
-/

namespace ReliableMulticast

namespace SeqNum

/-! ### Offsets from one base -/

theorem gap_split {a b c : SeqNum} (h : a.gap b ≤ a.gap c) : b.gap c = a.gap c - a.gap b := by
  have ha := toNat_lt a
  have hb := toNat_lt b
  have hc := toNat_lt c
  simp only [gap_eq] at h ⊢
  omega

theorem gap_add_add (a : SeqNum) {m n : Nat} (h : m ≤ n) (hn : n - m < 4294967296) :
    (a + m).gap (a + n) = n - m := by
  have ha := toNat_lt a
  simp only [gap_eq, toNat_add]
  omega

theorem gap_add_right {a b : SeqNum} {n : Nat} (h : a.gap b + n < 4294967296) :
    a.gap (b + n) = a.gap b + n := by
  have := gap_add a h
  rwa [← add_add, add_gap] at this

theorem gap_next_self (s : SeqNum) : s.gap s.next = 1 := gap_add s (by decide)

theorem before_next (s : SeqNum) : s.Before s.next := by
  rw [before_iff, gap_next_self]
  omega

theorem gap_next {a b : SeqNum} (h : 0 < a.gap b) : a.next.gap b = a.gap b - 1 := by
  have ha := toNat_lt a
  have hb := toNat_lt b
  simp only [next, gap_eq, toNat_add] at h ⊢
  omega

theorem gap_trans {a b c : SeqNum} (h : a.gap b + b.gap c < 4294967296) :
    a.gap c = a.gap b + b.gap c := by
  have := gap_add_right h
  rwa [add_gap] at this

theorem gap_add_one {a b : SeqNum} (h : 0 < a.gap b.next) : a.gap b + 1 = a.gap b.next := by
  have ha := toNat_lt a
  have hb := toNat_lt b
  simp only [next, gap_eq, toNat_add] at h ⊢
  omega

theorem gap_sub {a : SeqNum} {n : Nat} (h : n < 4294967296) : (a - n).gap a = n := by
  have ha := toNat_lt a
  simp only [gap_eq, toNat_sub]
  omega

theorem prev_add (s : SeqNum) {n : Nat} (h : 0 < n) : (s + n).prev = s + (n - 1) := by
  obtain ⟨n, rfl⟩ := Nat.exists_eq_add_of_lt h
  rw [Nat.zero_add, ← add_next, next_prev, Nat.add_sub_cancel]

/-- Of two stretches that end together the longer one begins as much earlier. -/
theorem eq_add_sub {a b : SeqNum} {m n : Nat} (h : a + m = b + n) (hmn : m ≤ n) :
    a = b + (n - m) := by
  apply ext_toNat
  have ha := toNat_lt a
  have hsum := congrArg (fun s => s.raw.toNat) h
  simp only [toNat_add] at hsum ⊢
  omega

/-- Offsets that differ by less than half of the number space stand in the order of their numbers. -/
theorem before_add_iff (a : SeqNum) {m n : Nat} (hm : m < n + 2147483648)
    (hn : n ≤ m + 2147483648) : (a + m).Before (a + n) ↔ m < n := by
  have ha := toNat_lt a
  simp only [before_iff, gap_eq, toNat_add]
  omega

/-- Seen from a common base, the nearer of two numbers comes first. -/
theorem before_iff_gap_lt (a : SeqNum) {b c : SeqNum} (hb : a.gap b < a.gap c + 2147483648)
    (hc : a.gap c ≤ a.gap b + 2147483648) : b.Before c ↔ a.gap b < a.gap c := by
  have h := before_add_iff a hb hc
  rwa [add_gap, add_gap] at h

theorem steps_eq_gap {a b : SeqNum} (h : a.gap b ≤ 2147483648) : a.steps b = a.gap b := by
  unfold steps
  by_cases hz : a.gap b = 0
  · rw [hz, ite_self]
  · rw [if_pos (before_iff.2 ⟨by omega, h⟩)]

theorem upTo_eq_run {a b : SeqNum} (h : a.gap b ≤ 2147483648) : a.upTo b = a.run (a.gap b) := by
  rw [upTo, steps_eq_gap h]

theorem steps_add (a : SeqNum) {m n : Nat} (hm : m < n + 2147483648)
    (hn : n ≤ m + 2147483648) : (a + m).steps (a + n) = n - m := by
  unfold steps
  by_cases h : m < n
  · rw [if_pos ((before_add_iff a hm hn).2 h), gap_add_add a (by omega) (by omega)]
  · rw [if_neg fun hb => h ((before_add_iff a hm hn).1 hb)]
    omega

/-! ### Lists of numbers -/

theorem run_add (s : SeqNum) (m n : Nat) : s.run (m + n) = s.run m ++ (s + m).run n := by
  induction m generalizing s with
  | zero => rw [Nat.zero_add, add_zero, run, List.nil_append]
  | succ m ih => rw [Nat.succ_add, run, ih, next_add, run, List.cons_append]

theorem nodup_run (s : SeqNum) {n : Nat} (hn : n ≤ 4294967296) : (s.run n).Nodup := by
  induction n with
  | zero => exact List.nodup_nil
  | succ n ih =>
    rw [run_add, List.nodup_append]
    refine ⟨ih (by omega), List.pairwise_singleton _ _, fun x hx y hy he => ?_⟩
    obtain ⟨k, hk, rfl⟩ := mem_run.1 hx
    obtain rfl := List.mem_singleton.1 hy
    have := (add_inj (by omega) (by omega)).1 he
    omega

/-- The range from `a + m` lists the offsets from `m` on. -/
theorem mem_upTo_add {a x : SeqNum} {m n : Nat} (hm : m < n + 2147483648)
    (hn : n ≤ m + 2147483648) : x ∈ (a + m).upTo (a + n) ↔ ∃ k, m ≤ k ∧ k < n ∧ x = a + k := by
  rw [upTo, steps_add a hm hn, mem_run]
  constructor
  · rintro ⟨k, hk, rfl⟩
    exact ⟨m + k, by omega, by omega, add_add a m k⟩
  · rintro ⟨k, hk, hkn, rfl⟩
    exact ⟨k - m, by omega, by rw [add_add, Nat.add_sub_cancel' hk]⟩

end SeqNum

namespace SlotRing

/-! ### Slots of a stretch -/

/-- The slots of the `n` numbers that start at `s`, as far as they are in the ring. -/
def slice (r : SlotRing) (s : SeqNum) (n : Nat) : List Slot := (s.run n).filterMap r.get?

theorem slice_zero (r : SlotRing) (s : SeqNum) : r.slice s 0 = [] := rfl

theorem slice_succ {r : SlotRing} {s : SeqNum} {slot : Slot} (h : r.get? s = some slot) (n : Nat) :
    r.slice s (n + 1) = slot :: r.slice s.next n := by
  rw [slice, SeqNum.run, List.filterMap_cons_some h, slice]

theorem slice_add (r : SlotRing) (s : SeqNum) (m n : Nat) :
    r.slice s (m + n) = r.slice s m ++ r.slice (s + m) n := by
  rw [slice, SeqNum.run_add, List.filterMap_append, slice, slice]

/-- Rings with the same slots in a stretch have the same slice there. -/
theorem slice_congr {r r' : SlotRing} {s : SeqNum} {n : Nat}
    (h : ∀ k, k < n → r'.get? (s + k) = r.get? (s + k)) : r'.slice s n = r.slice s n := by
  refine List.filterMap_congr fun x hx => ?_
  obtain ⟨k, hk, rfl⟩ := SeqNum.mem_run.1 hx
  exact h k hk

/-- The numbers of a stretch that ends within the ring are all in the ring. -/
theorem contains_add {r : SlotRing} {s : SeqNum} {n k : Nat} (hs : r.trail.gap s + n ≤ r.size)
    (hk : k < n) : r.Contains (s + k) := by
  refine contains_iff.2 ⟨r.trail.gap s + k, by omega, ?_⟩
  rw [← SeqNum.add_add, SeqNum.add_gap]

theorem exists_get? {r : SlotRing} {s : SeqNum} (h : r.Contains s) : ∃ slot, r.get? s = some slot :=
  Option.isSome_iff_exists.1 (isSome_get?_iff.2 h)

theorem length_slice {r : SlotRing} {s : SeqNum} {n : Nat} (hs : r.trail.gap s + n ≤ r.size) :
    (r.slice s n).length = n := by
  induction n with
  | zero => rfl
  | succ n ih =>
    obtain ⟨slot, hslot⟩ := exists_get? (contains_add hs (Nat.lt_succ_self n))
    rw [slice_add, List.length_append, ih (by omega), slice_succ hslot, slice_zero]
    rfl

theorem getElem?_slice {r : SlotRing} {s : SeqNum} {n k : Nat} (hs : r.trail.gap s + n ≤ r.size)
    (hk : k < n) : (r.slice s n)[k]? = r.get? (s + k) := by
  obtain ⟨slot, hslot⟩ := exists_get? (contains_add hs hk)
  have hn : n = k + (n - k - 1 + 1) := by omega
  have hlen : (r.slice s k).length = k := length_slice (by omega)
  rw [hn, slice_add, List.getElem?_append_right (Nat.le_of_eq hlen), hlen, Nat.sub_self,
    slice_succ hslot, List.getElem?_cons_zero, hslot]

theorem mem_slice {r : SlotRing} {s : SeqNum} {n : Nat} {slot : Slot} :
    slot ∈ r.slice s n ↔ ∃ k, k < n ∧ r.get? (s + k) = some slot := by
  rw [slice, List.mem_filterMap]
  constructor
  · rintro ⟨x, hx, h⟩
    obtain ⟨k, hk, rfl⟩ := SeqNum.mem_run.1 hx
    exact ⟨k, hk, h⟩
  · rintro ⟨k, hk, h⟩
    exact ⟨s + k, SeqNum.mem_run.2 ⟨k, hk, rfl⟩, h⟩

/-- Slices of two rings are related slot by slot if the slots of each number are. -/
theorem forall₂_slice {r r' : SlotRing} {R : Slot → Slot → Prop} {s : SeqNum} {n : Nat}
    (hn : r.trail.gap s + n ≤ r.size)
    (h : ∀ k slot, k < n → r.get? (s + k) = some slot →
      ∃ new, r'.get? (s + k) = some new ∧ R slot new) :
    List.Forall₂ R (r.slice s n) (r'.slice s n) := by
  induction n with
  | zero => exact .nil
  | succ n ih =>
    obtain ⟨slot, hslot⟩ := exists_get? (contains_add hn (Nat.lt_succ_self n))
    obtain ⟨new, hnew, hr⟩ := h n slot (Nat.lt_succ_self n) hslot
    rw [slice_add, slice_add, slice_succ hslot, slice_succ hnew]
    exact List.rel_append (ih (by omega) fun k slot hk => h k slot (by omega)) (.cons hr .nil)

/-! ### Counting slots -/

theorem countP_slice_succ (r : SlotRing) (s : SeqNum) (n : Nat) (p : Slot → Bool) :
    (r.slice s (n + 1)).countP p =
      (r.slice s n).countP p + if (r.get? (s + n)).any p then 1 else 0 := by
  rw [slice_add, List.countP_append]
  congr 1
  change ([s + n].filterMap r.get?).countP p = _
  cases h : r.get? (s + n) <;> simp [h, List.countP_cons]

theorem countP_slice (r : SlotRing) (s : SeqNum) (n : Nat) (p : Slot → Bool) :
    (r.slice s n).countP p = (List.range n).countP fun k => (r.get? (s + k)).any p := by
  induction n with
  | zero => rfl
  | succ n ih =>
    rw [countP_slice_succ, ih, List.range_succ, List.countP_append, List.countP_singleton]

theorem countP_slice_congr {r r' : SlotRing} {s : SeqNum} {n : Nat} {p : Slot → Bool}
    (h : ∀ k, k < n → (r'.get? (s + k)).any p = (r.get? (s + k)).any p) :
    (r'.slice s n).countP p = (r.slice s n).countP p := by
  induction n with
  | zero => rw [slice_zero, slice_zero]
  | succ n ih =>
    rw [countP_slice_succ, countP_slice_succ, h n (Nat.lt_succ_self n),
      ih fun k hk => h k (Nat.lt_succ_of_lt hk)]

/-- One more slot counts if one slot comes to count and all others are as they were. -/
theorem countP_slice_add_one {r r' : SlotRing} {s : SeqNum} {n j : Nat} {p : Slot → Bool}
    (hj : j < n) (before : (r.get? (s + j)).any p = false) (after : (r'.get? (s + j)).any p)
    (h : ∀ k, k < n → k ≠ j → (r'.get? (s + k)).any p = (r.get? (s + k)).any p) :
    (r'.slice s n).countP p = (r.slice s n).countP p + 1 := by
  induction n with
  | zero => exact absurd hj (Nat.not_lt_zero j)
  | succ n ih =>
    rw [countP_slice_succ, countP_slice_succ]
    by_cases he : j = n
    · subst he
      rw [before, after, countP_slice_congr fun k hk => h k (Nat.lt_succ_of_lt hk) (by omega)]
      rfl
    · rw [ih (by omega) fun k hk => h k (Nat.lt_succ_of_lt hk), h n (Nat.lt_succ_self n) (Ne.symm he)]
      omega

end SlotRing

end ReliableMulticast
