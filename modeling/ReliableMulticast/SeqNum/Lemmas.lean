import ReliableMulticast.SeqNum.Basic

/-!
# Arithmetic of sequence numbers

`gap` is the inverse of stepping forward: `a + gap a b = b`, and `gap a (a + n) = n` for every `n`
below `2 ^ 32`. The order is a statement about `gap` (`before_iff`), and a range lists the numbers
`a + k` (`getElem?_run`, `mem_run`).
-/

namespace ReliableMulticast.SeqNum

theorem ext_toNat {a b : SeqNum} (h : a.raw.toNat = b.raw.toNat) : a = b := by
  cases a; cases b; exact congrArg mk (UInt32.toNat_inj.1 h)

theorem toNat_add (s : SeqNum) (n : Nat) : (s + n).raw.toNat = (s.raw.toNat + n) % 4294967296 := by
  show (s.raw + UInt32.ofNat n).toNat = _
  rw [UInt32.toNat_add, UInt32.toNat_ofNat']
  omega

theorem toNat_sub (s : SeqNum) (n : Nat) :
    (s - n).raw.toNat = (s.raw.toNat + (4294967296 - n % 4294967296)) % 4294967296 := by
  show (s.raw - UInt32.ofNat n).toNat = _
  rw [UInt32.toNat_sub, UInt32.toNat_ofNat']
  omega

theorem gap_eq (a b : SeqNum) :
    a.gap b = (4294967296 - a.raw.toNat + b.raw.toNat) % 4294967296 := by
  unfold gap
  rw [UInt32.toNat_sub]

theorem toNat_lt (s : SeqNum) : s.raw.toNat < 4294967296 := s.raw.toNat_lt

/-! ### Steps and gaps -/

@[simp] theorem add_zero (s : SeqNum) : s + 0 = s := by
  apply ext_toNat
  have := toNat_lt s
  rw [toNat_add]
  omega

theorem add_add (s : SeqNum) (m n : Nat) : s + m + n = s + (m + n) := by
  apply ext_toNat
  simp only [toNat_add]
  omega

theorem next_add (s : SeqNum) (n : Nat) : s.next + n = s + (n + 1) := by
  rw [next, add_add, Nat.add_comm]

theorem add_next (s : SeqNum) (n : Nat) : (s + n).next = s + (n + 1) := add_add s n 1

@[simp] theorem next_prev (s : SeqNum) : s.next.prev = s := by
  apply ext_toNat
  have := toNat_lt s
  rw [prev, toNat_sub, next, toNat_add]
  omega

@[simp] theorem prev_next (s : SeqNum) : s.prev.next = s := by
  apply ext_toNat
  have := toNat_lt s
  rw [next, toNat_add, prev, toNat_sub]
  omega

theorem gap_lt (a b : SeqNum) : a.gap b < 4294967296 := (b.raw - a.raw).toNat_lt

@[simp] theorem gap_self (a : SeqNum) : a.gap a = 0 := by
  have := toNat_lt a
  rw [gap_eq]
  omega

@[simp] theorem add_gap (a b : SeqNum) : a + a.gap b = b := by
  apply ext_toNat
  have := toNat_lt a
  have := toNat_lt b
  rw [toNat_add, gap_eq]
  omega

theorem gap_add (a : SeqNum) {n : Nat} (h : n < 4294967296) : a.gap (a + n) = n := by
  have := toNat_lt a
  rw [gap_eq, toNat_add]
  omega

theorem gap_eq_zero_iff {a b : SeqNum} : a.gap b = 0 ↔ a = b := by
  constructor
  · intro h
    have := add_gap a b
    rwa [h, add_zero] at this
  · rintro rfl
    exact gap_self a

/-- Two numbers fewer than `2 ^ 32` steps ahead of `a` are equal only if they are as far ahead. -/
theorem add_inj {a : SeqNum} {m n : Nat} (hm : m < 4294967296) (hn : n < 4294967296) :
    a + m = a + n ↔ m = n :=
  ⟨fun h => by rw [← gap_add a hm, h, gap_add a hn], fun h => h ▸ rfl⟩

/-! ### Order -/

theorem before_iff {a b : SeqNum} : a.Before b ↔ 1 ≤ a.gap b ∧ a.gap b ≤ 2147483648 := by
  have := toNat_lt a
  have := toNat_lt b
  simp only [Before, distance, gap_eq]
  split <;> omega

/-! ### Ranges -/

theorem length_run (s : SeqNum) (n : Nat) : (s.run n).length = n := by
  induction n generalizing s with
  | zero => rfl
  | succ n ih => rw [run, List.length_cons, ih]

theorem getElem?_run {s : SeqNum} {n k : Nat} (h : k < n) : (s.run n)[k]? = some (s + k) := by
  induction n generalizing s k with
  | zero => exact absurd h (Nat.not_lt_zero k)
  | succ n ih =>
    rw [run]
    cases k with
    | zero => rw [List.getElem?_cons_zero, add_zero]
    | succ k => rw [List.getElem?_cons_succ, ih (Nat.lt_of_succ_lt_succ h), next_add]

theorem mem_run {s x : SeqNum} {n : Nat} : x ∈ s.run n ↔ ∃ k, k < n ∧ x = s + k := by
  constructor
  · intro h
    obtain ⟨k, hk⟩ := List.getElem?_of_mem h
    have hlt : k < n := by
      have := (List.getElem?_eq_some_iff.1 hk).1
      rwa [length_run] at this
    rw [getElem?_run hlt] at hk
    exact ⟨k, hlt, (Option.some.inj hk).symm⟩
  · rintro ⟨k, hk, rfl⟩
    exact List.mem_of_getElem? (getElem?_run hk)

end ReliableMulticast.SeqNum
