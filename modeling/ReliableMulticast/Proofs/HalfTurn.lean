import Mathlib.Order.RelIso.Set
import ReliableMulticast.Proofs.Stretch

/-!
# The order on half a turn

The numbers form a circle, and which of two comes first is told by the shorter way between them. Among
the numbers of an arc of half a turn or less this is the order of their offsets from its start
(`offsetEmbedding`), so it is a strict total order wherever on the circle the arc lies, and a range lists
what lies between its ends. Longer arcs have no such order (`isStrictTotalOrder_arc_iff`): of two numbers
half a turn apart each is before the other (`before_half_turn`).
-/

namespace ReliableMulticast.SeqNum

variable {a b x y : SeqNum} {m n : Nat}

/-! ### Offsets -/

theorem distance_add_add (a : SeqNum) (hm : m ≤ n + 2147483648) (hn : n < m + 2147483648) :
    (a + m).distance (a + n) = (n : Int) - m := by
  have ha := toNat_lt a
  simp only [distance, gap_eq, toNat_add]
  split <;> omega

/-- Of two numbers half a turn apart each is before the other. -/
theorem before_half_turn (a : SeqNum) :
    a.Before (a + 2147483648) ∧ (a + 2147483648).Before a := by
  have ha := toNat_lt a
  simp only [before_iff, gap_eq, toNat_add]
  omega

/-! ### Arcs -/

/-- The `n` numbers that begin at `b`, wherever the numbers wrap. -/
def arc (b : SeqNum) (n : Nat) : Set SeqNum := {x | ∃ k, k < n ∧ x = b + k}

theorem gap_lt_of_mem_arc (hx : x ∈ b.arc n) (hn : n ≤ 4294967296) : b.gap x < n := by
  obtain ⟨k, hk, rfl⟩ := hx
  rwa [gap_add b (by omega)]

theorem arc_subset_arc (b : SeqNum) (h : m ≤ n) : b.arc m ⊆ b.arc n := by
  rintro x ⟨k, hk, rfl⟩
  exact ⟨k, Nat.lt_of_lt_of_le hk h, rfl⟩

/-- Numbers on half a turn stand in the order of their offsets. -/
def offsetEmbedding {S : Set SeqNum} (near : S ⊆ b.arc 2147483648) :
    Subrel Before (· ∈ S) ↪r ((· < ·) : Nat → Nat → Prop) where
  toFun x := b.gap x
  inj' := by
    rintro ⟨x, hx⟩ ⟨y, hy⟩ hgap
    refine Subtype.ext ?_
    calc x = b + b.gap x := (add_gap b x).symm
      _ = b + b.gap y := congrArg (b + ·) hgap
      _ = y := add_gap b y
  map_rel_iff' := by
    intro x y
    have hx := gap_lt_of_mem_arc (near x.2) (by decide)
    have hy := gap_lt_of_mem_arc (near y.2) (by decide)
    exact (before_iff_gap_lt b (by omega) (by omega)).symm

theorem isStrictTotalOrder_of_subset_arc {S : Set SeqNum} (near : S ⊆ b.arc 2147483648) :
    IsStrictTotalOrder S (Subrel Before (· ∈ S)) :=
  (offsetEmbedding near).isStrictTotalOrder

/-- Half a turn is the longest arc that is in order. -/
theorem isStrictTotalOrder_arc_iff (b : SeqNum) (n : Nat) :
    IsStrictTotalOrder (b.arc n) (Subrel Before (· ∈ b.arc n)) ↔ n ≤ 2147483648 := by
  constructor
  · intro order
    by_contra far
    -- The arc is long enough for two numbers half a turn apart.
    let first : b.arc n := ⟨b, 0, by omega, (add_zero b).symm⟩
    let last : b.arc n := ⟨b + 2147483648, 2147483648, by omega, rfl⟩
    have there : Subrel Before (· ∈ b.arc n) first last := b.before_half_turn.1
    exact asymm_of (Subrel Before (· ∈ b.arc n)) there b.before_half_turn.2
  · intro hn
    exact isStrictTotalOrder_of_subset_arc (arc_subset_arc b hn)

/-! ### Ranges -/

theorem steps_le (a b : SeqNum) : a.steps b ≤ 2147483648 := by
  unfold steps
  split
  next before => exact (before_iff.1 before).2
  · exact Nat.zero_le _

theorem steps_le_gap (a b : SeqNum) : a.steps b ≤ a.gap b := by
  unfold steps
  split
  · exact Nat.le_refl _
  · exact Nat.zero_le _

/-- A range is left after all its steps and not before. -/
theorem add_before_iff {k : Nat} (hk : k ≤ a.steps b) : (a + k).Before b ↔ k < a.steps b := by
  have hle := a.steps_le b
  by_cases before : a.Before b
  · rw [steps, if_pos before] at *
    have key := before_add_iff a (m := k) (n := a.gap b) (by omega) (by omega)
    rwa [add_gap] at key
  · rw [steps, if_neg before] at *
    obtain rfl := Nat.le_zero.1 hk
    rw [add_zero]
    exact ⟨fun h => absurd h before, fun h => absurd h (Nat.lt_irrefl 0)⟩

theorem upTo_of_not_before (h : ¬ a.Before b) : a.upTo b = [] := by
  rw [upTo, steps, if_neg h, run]

theorem steps_of_before (h : a.Before b) : a.steps b = a.next.steps b + 1 := by
  obtain ⟨hpos, hle⟩ := before_iff.1 h
  have hnext := gap_next hpos
  rw [steps_eq_gap hle, steps_eq_gap (by omega), hnext, Nat.sub_add_cancel hpos]

theorem upTo_of_before (h : a.Before b) : a.upTo b = a :: a.next.upTo b := by
  rw [upTo, steps_of_before h, run, upTo]

theorem run_add_eq_map (a : SeqNum) (m n : Nat) :
    (a + m).run n = (List.range' m n).map (a + ·) := by
  induction n generalizing m with
  | zero => rfl
  | succ n ih => rw [run, add_next, ih, List.range'_succ, List.map_cons]

theorem take_run (s : SeqNum) (m n : Nat) : (s.run n).take m = s.run (min m n) := by
  rcases Nat.le_total m n with h | h
  · rw [Nat.min_eq_left h, ← Nat.add_sub_cancel' h, run_add, List.take_left' (length_run s m)]
  · rw [Nat.min_eq_right h, List.take_of_length_le (by rwa [length_run])]

theorem upToAtMost_eq_take (a b : SeqNum) (limit : Nat) :
    a.upToAtMost b limit = (a.upTo b).take limit := (a.take_run limit (a.steps b)).symm

/-- The loop that goes on from `a` while that is before `stop` lists these numbers, one each turn. -/
inductive Walks (stop : SeqNum) : SeqNum → List SeqNum → Prop
  | done {a : SeqNum} (reached : ¬ a.Before stop) : Walks stop a []
  | turn {a : SeqNum} {later : List SeqNum} (before : a.Before stop)
      (walks : Walks stop a.next later) : Walks stop a (a :: later)

/-- The loop over a range ends, and lists the range. -/
theorem walks_upTo (a stop : SeqNum) : Walks stop a (a.upTo stop) := by
  induction hsteps : a.steps stop generalizing a with
  | zero =>
    have reached : ¬ a.Before stop := by
      intro before
      rw [steps_of_before before] at hsteps
      cases hsteps
    rw [upTo_of_not_before reached]
    exact .done reached
  | succ count ih =>
    have before : a.Before stop := by
      by_contra reached
      rw [steps, if_neg reached] at hsteps
      cases hsteps
    rw [steps_of_before before] at hsteps
    rw [upTo_of_before before]
    exact .turn before (ih a.next (Nat.succ.inj hsteps))

/-- The loop over a range lists nothing else. -/
theorem walks_iff {stop : SeqNum} {numbers : List SeqNum} :
    Walks stop a numbers ↔ numbers = a.upTo stop := by
  constructor
  · intro h
    induction h with
    | done reached => rw [upTo_of_not_before reached]
    | turn before _ ih => rw [upTo_of_before before, ih]
  · rintro rfl
    exact walks_upTo a stop

/-! ### Numbers as offsets -/

/-- The numbers `i` and `j` steps after `b` are to each other what `i` and `j` are. -/
structure ComparesAs (b : SeqNum) (i j : Nat) : Prop where
  before : (b + i).Before (b + j) ↔ i < j
  after : (b + i).After (b + j) ↔ i > j
  beforeOrEq : (b + i).BeforeOrEq (b + j) ↔ i ≤ j
  afterOrEq : (b + i).AfterOrEq (b + j) ↔ i ≥ j
  distance : (b + i).distance (b + j) = (j : Int) - i
  upTo : (b + i).upTo (b + j) = (List.range' i (j - i)).map (b + ·)
  upToAtMost : ∀ limit,
    (b + i).upToAtMost (b + j) limit = ((List.range' i (j - i)).map (b + ·)).take limit
  /-- Going through the range number by number ends, with these numbers. -/
  walks : ∀ numbers,
    Walks (b + j) (b + i) numbers ↔ numbers = (List.range' i (j - i)).map (b + ·)

theorem comparesAs {i j : Nat} (b : SeqNum) (hi : i < 2147483648) (hj : j < 2147483648) :
    b.ComparesAs i j := by
  have before : (b + i).Before (b + j) ↔ i < j := before_add_iff b (by omega) (by omega)
  have after : (b + j).Before (b + i) ↔ j < i := before_add_iff b (by omega) (by omega)
  have steps : (b + i).steps (b + j) = j - i := steps_add b (by omega) (by omega)
  have range : (b + i).upTo (b + j) = (List.range' i (j - i)).map (b + ·) := by
    rw [SeqNum.upTo, steps, run_add_eq_map]
  exact
    { before
      after
      beforeOrEq := by rw [BeforeOrEq, After, after, Nat.not_lt]
      afterOrEq := by rw [AfterOrEq, before, Nat.not_lt]
      distance := distance_add_add b (by omega) (by omega)
      upTo := range
      upToAtMost := by
        intro limit
        rw [upToAtMost_eq_take, range]
      walks := by
        intro numbers
        rw [walks_iff, range] }

/-- Wherever the numbers wrap, those of half a turn compare as their offsets from its start do, and no
set of them is out of order. -/
theorem order_faithful (b : SeqNum) :
    (∀ i j, i < 2147483648 → j < 2147483648 → b.ComparesAs i j) ∧
    ∀ S : Set SeqNum, S ⊆ b.arc 2147483648 → IsStrictTotalOrder S (Subrel Before (· ∈ S)) :=
  ⟨fun _ _ hi hj => b.comparesAs hi hj, fun _ near => isStrictTotalOrder_of_subset_arc near⟩

/-- Three numbers around the wrap, the last of them as far from the first as half a turn allows. -/
def wrappedSet : Set SeqNum := {4294967294, 0, 2147483645}

theorem order_faithful_small :
    1 < 2147483648 ∧ 4 < 2147483648 ∧ 2147483647 < 2147483648 ∧
      ComparesAs 4294967294 1 4 ∧ upTo 4294967295 2 = [4294967295, 0, 1] ∧
      ComparesAs 4294967294 2147483647 1 ∧ Before 4294967294 2147483645 ∧
      wrappedSet ⊆ arc 4294967294 2147483648 ∧
      IsStrictTotalOrder wrappedSet (Subrel Before (· ∈ wrappedSet)) := by
  have near : wrappedSet ⊆ arc 4294967294 2147483648 := by
    rintro x (rfl | rfl | rfl)
    · exact ⟨0, by decide, rfl⟩
    · exact ⟨2, by decide, rfl⟩
    · exact ⟨2147483647, by decide, rfl⟩
  obtain ⟨compare, order⟩ := order_faithful 4294967294
  exact ⟨by decide, by decide, by decide, compare 1 4 (by decide) (by decide), by decide,
    compare 2147483647 1 (by decide) (by decide), by decide, near, order wrappedSet near⟩

end ReliableMulticast.SeqNum
