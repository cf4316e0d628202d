import Mathlib.Data.List.TakeWhile
import ReliableMulticast.TimerQueues

/-!
# What leaves the timer queues

Numbers leave a queue in two ways. Those that are due are taken off the front: the longest front that
holds up nothing goes (`splitDue_eq`), what is stale in it is dropped and the rest is handed out in
order (`pops_popDue`). And a number is removed where it stands first (`removes_remove?`). So the books of
a queue balance over any history: what entered has left or is still there, as often as it entered, and
what is there stands in the order in which it entered (`balances_run`).
-/

namespace ReliableMulticast.TimerQueues

variable {now : Timestamp} {expiry : SeqNum → Option Timestamp} {numbers : List SeqNum} {s x : SeqNum}

/-! ### The front of a queue -/

/-- The number holds up nothing behind it: it is stale, or its timer ends at `now` or before. -/
def LetsBy (now : Timestamp) (expiry : SeqNum → Option Timestamp) (s : SeqNum) : Prop :=
  ∀ e ∈ expiry s, e ≤ now

instance : DecidablePred (LetsBy now expiry) := fun s =>
  inferInstanceAs (Decidable (∀ e ∈ expiry s, e ≤ now))

theorem letsBy_of_none (stale : expiry s = none) : LetsBy now expiry s := by
  intro e he
  rw [stale] at he
  cases he

theorem letsBy_iff {e : Timestamp} (he : expiry s = some e) : LetsBy now expiry s ↔ e ≤ now := by
  simp [LetsBy, he]

/-- What is due is what is not stale in the longest front that holds up nothing. -/
theorem splitDue_eq (now : Timestamp) (expiry : SeqNum → Option Timestamp) (numbers : List SeqNum) :
    splitDue now expiry numbers =
      ((numbers.takeWhile (LetsBy now expiry ·)).filter fun s => (expiry s).isSome,
        numbers.dropWhile (LetsBy now expiry ·)) := by
  induction numbers with
  | nil => rfl
  | cons s numbers ih =>
    rw [splitDue]
    cases he : expiry s with
    | none =>
      have lets : LetsBy now expiry s := letsBy_of_none he
      simp [ih, lets, he]
    | some e =>
      have lets : LetsBy now expiry s ↔ e ≤ now := letsBy_iff he
      by_cases due : e ≤ now
      · simp [ih, lets, he, due]
      · simp [lets, due]

theorem isSome_of_mem_splitDue (hx : x ∈ (splitDue now expiry numbers).1) : (expiry x).isSome := by
  rw [splitDue_eq] at hx
  exact (List.mem_filter.1 hx).2

/-- What is due has an expiry, at `now` or before. -/
theorem le_of_mem_splitDue (hx : x ∈ (splitDue now expiry numbers).1) :
    ∃ e, expiry x = some e ∧ e ≤ now := by
  obtain ⟨e, he⟩ := Option.isSome_iff_exists.1 (isSome_of_mem_splitDue hx)
  rw [splitDue_eq] at hx
  have lets := List.mem_takeWhile_imp (List.mem_filter.1 hx).1
  exact ⟨e, he, of_decide_eq_true lets e he⟩

/-- If no number is stale, those that are due are the front of the queue. -/
theorem splitDue_append (now : Timestamp) (fresh : ∀ s ∈ numbers, (expiry s).isSome) :
    (splitDue now expiry numbers).1 ++ (splitDue now expiry numbers).2 = numbers := by
  have kept : (numbers.takeWhile (LetsBy now expiry ·)).filter (fun s => (expiry s).isSome) =
      numbers.takeWhile (LetsBy now expiry ·) :=
    List.filter_eq_self.2 fun s hs => fresh s (List.takeWhile_subset _ hs)
  rw [splitDue_eq, kept, List.takeWhile_append_dropWhile]

/-- The first number that is left is not due. -/
theorem lt_of_mem_head_splitDue (hx : x ∈ (splitDue now expiry numbers).2.head?) :
    ∀ e ∈ expiry x, now < e := by
  intro e he
  have holds := List.head?_dropWhile_not (LetsBy now expiry ·) numbers
  rw [splitDue_eq, Option.mem_def] at hx
  simp only [hx, decide_eq_false_iff_not, letsBy_iff he] at holds
  exact Nat.lt_of_not_le holds

/-! ### Taking off what is due -/

/-- The longest front of `numbers` all of whose members have the property. -/
structure LongestFront (p : SeqNum → Prop) (numbers front : List SeqNum) : Prop where
  isFront : front <+: numbers
  all : ∀ s ∈ front, p s
  longest : ∀ other, other <+: numbers → (∀ s ∈ other, p s) → other <+: front

theorem longestFront_takeWhile (p : SeqNum → Prop) [DecidablePred p] (numbers : List SeqNum) :
    LongestFront p numbers (numbers.takeWhile (p ·)) where
  isFront := List.takeWhile_prefix _
  all := by
    intro s hs
    have holds := List.mem_takeWhile_imp hs
    exact of_decide_eq_true holds
  longest := by
    rintro other ⟨rest, rfl⟩ all
    rw [List.takeWhile_append_of_pos fun s hs => decide_eq_true (all s hs)]
    exact List.prefix_append _ _

/-- The longest front of queue `t` that holds up nothing is taken off and what is not stale in it is
handed out in order; nothing else changes. -/
structure Pops (q : TimerQueues) (t : Timer) (now : Timestamp) (expiry : SeqNum → Option Timestamp)
    (due : List SeqNum) (q' : TimerQueues) : Prop where
  exists_front : ∃ front, LongestFront (LetsBy now expiry) (q.queue t) front ∧
    due = front.filter (fun s => (expiry s).isSome) ∧ front ++ q'.queue t = q.queue t
  others : ∀ u, u ≠ t → q'.queue u = q.queue u

theorem pops_popDue (q : TimerQueues) (t : Timer) (now : Timestamp)
    (expiry : SeqNum → Option Timestamp) :
    q.Pops t now expiry (q.popDue t now expiry).1 (q.popDue t now expiry).2 := by
  rw [popDue, splitDue_eq]
  refine ⟨⟨_, longestFront_takeWhile (LetsBy now expiry) (q.queue t), rfl, ?_⟩, fun u hu => ?_⟩
  · rw [queue_set, if_pos rfl, List.takeWhile_append_dropWhile]
  · rw [queue_set, if_neg hu]

/-- A stale number does not stop those behind it, a timer that runs on does. -/
example :
    popDue ⟨[], [7, 1, 7, 2, 1], []⟩ .waitNcf 15
      (fun s => if s = 7 then none else if s = 1 then some 10 else some 20) =
        ([1], ⟨[], [2, 1], []⟩) := by decide

/-! ### Removing a number -/

/-- Where a number stands first in queue `t` it is taken out, if it stands there at all, and nothing
else changes. -/
inductive Removes (q : TimerQueues) (t : Timer) (s : SeqNum) : Option TimerQueues → Prop
  | absent (absent : s ∉ q.queue t) : Removes q t s none
  | found {q' : TimerQueues} (ahead behind : List SeqNum) (first : s ∉ ahead)
      (old : q.queue t = ahead ++ s :: behind) (new : q'.queue t = ahead ++ behind)
      (others : ∀ u, u ≠ t → q'.queue u = q.queue u) : Removes q t s (some q')

theorem removes_remove? (q : TimerQueues) (t : Timer) (s : SeqNum) :
    q.Removes t s (q.remove? t s) := by
  unfold remove?
  split
  next inside =>
    obtain ⟨ahead, behind, first, old, new⟩ := List.exists_erase_eq (List.contains_iff_mem.1 inside)
    refine .found ahead behind first old ?_ fun u hu => ?_
    · rw [erase, queue_set, if_pos rfl, new]
    · rw [erase, queue_set, if_neg hu]
  next outside => exact .absent fun hs => outside (List.contains_iff_mem.2 hs)

/-! ### Histories -/

/-- What is done to the queues. -/
inductive Op where
  | push (t : Timer) (s : SeqNum)
  | remove (t : Timer) (s : SeqNum)
  | popDue (t : Timer) (now : Timestamp) (expiry : SeqNum → Option Timestamp)

def step (q : TimerQueues) : Op → TimerQueues
  | .push t s => q.push t s
  | .remove t s => (q.remove? t s).getD q
  | .popDue t now expiry => (q.popDue t now expiry).2

def run (q : TimerQueues) (ops : List Op) : TimerQueues := ops.foldl step q

/-- The numbers that enter queue `u`. -/
def Op.entering (u : Timer) : Op → List SeqNum
  | .push t s => if u = t then [s] else []
  | .remove .. => []
  | .popDue .. => []

/-- The numbers at the front of a queue that are dropped as stale when what is due is taken off. -/
def stale (q : TimerQueues) (t : Timer) (now : Timestamp) (expiry : SeqNum → Option Timestamp) :
    List SeqNum :=
  ((q.queue t).takeWhile (LetsBy now expiry ·)).filter fun s => (expiry s).isNone

/-- The numbers that leave queue `u`: those that are handed out, and those that are stale. -/
def leaving (q : TimerQueues) (u : Timer) : Op → List SeqNum
  | .push .. => []
  | .remove t s => if u = t ∧ (q.remove? t s).isSome then [s] else []
  | .popDue t now expiry =>
    if u = t then (q.popDue t now expiry).1 ++ q.stale t now expiry else []

/-- The numbers that leave queue `u` in a history. -/
def departed (q : TimerQueues) (u : Timer) : List Op → List SeqNum
  | [] => []
  | op :: ops => q.leaving u op ++ (q.step op).departed u ops

/-- What was in a queue or entered it has left or is there now, each as often as before, and stands in
the same order. -/
structure Balances (old entered left new : List SeqNum) : Prop where
  perm : (left ++ new).Perm (old ++ entered)
  order : new.Sublist (old ++ entered)

namespace Balances

variable {a b c entered entered' left left' : List SeqNum}

/-- A queue that only took in. -/
theorem enter (a entered : List SeqNum) : Balances a entered [] (a ++ entered) :=
  ⟨.refl _, .refl _⟩

/-- A queue that only lost some of its numbers. -/
theorem leave (perm : (left ++ b).Perm a) (order : b.Sublist a) : Balances a [] left b := by
  rw [← a.append_nil] at perm order
  exact ⟨perm, order⟩

theorem refl (a : List SeqNum) : Balances a [] [] a := leave (.refl a) (.refl a)

theorem trans (first : Balances a entered left b) (second : Balances b entered' left' c) :
    Balances a (entered ++ entered') (left ++ left') c where
  perm := by
    have later := second.perm.append_left left
    have earlier := first.perm.append_right entered'
    rw [← List.append_assoc, ← List.append_assoc] at later
    rw [List.append_assoc a] at earlier
    exact later.trans earlier
  order := by
    rw [← List.append_assoc]
    exact second.order.trans (first.order.append_right entered')

end Balances

theorem queue_push (q : TimerQueues) (t u : Timer) (s : SeqNum) :
    (q.push t s).queue u = q.queue u ++ if u = t then [s] else [] := by
  rw [push, pushAll, queue_set]
  split
  next hu => rw [hu]
  · rw [List.append_nil]

theorem balances_remove (q : TimerQueues) (t u : Timer) (s : SeqNum) :
    Balances (q.queue u) [] (q.leaving u (.remove t s)) ((q.step (.remove t s)).queue u) := by
  have removes := q.removes_remove? t s
  rw [leaving, step]
  generalize q.remove? t s = result at removes ⊢
  cases removes with
  | absent =>
    rw [if_neg (by simp)]
    exact .refl _
  | found ahead behind first old new others =>
    by_cases hu : u = t
    · subst hu
      rw [if_pos ⟨rfl, rfl⟩, Option.getD_some, old, new]
      refine .leave ?_ ((List.sublist_cons_self s behind).append_left ahead)
      rw [List.singleton_append]
      exact List.perm_middle.symm
    · rw [if_neg fun h => hu h.1, Option.getD_some, others u hu]
      exact .refl _

theorem balances_popDue (q : TimerQueues) (t u : Timer) (now : Timestamp)
    (expiry : SeqNum → Option Timestamp) :
    Balances (q.queue u) [] (q.leaving u (.popDue t now expiry))
      ((q.step (.popDue t now expiry)).queue u) := by
  rw [leaving, step, popDue, splitDue_eq, queue_set]
  by_cases hu : u = t
  · subst hu
    -- What is due and what is stale make up the front; the rest stays.
    have split := List.filter_append_perm (fun s => (expiry s).isSome)
      ((q.queue u).takeWhile (LetsBy now expiry ·))
    simp only [Option.not_isSome] at split
    rw [if_pos rfl, if_pos rfl, stale]
    refine .leave ?_ (List.dropWhile_sublist _)
    have whole := split.append_right ((q.queue u).dropWhile (LetsBy now expiry ·))
    rwa [List.takeWhile_append_dropWhile] at whole
  · rw [if_neg hu, if_neg hu]
    exact .refl _

theorem balances_step (q : TimerQueues) (u : Timer) (op : Op) :
    Balances (q.queue u) (op.entering u) (q.leaving u op) ((q.step op).queue u) := by
  cases op with
  | push t s =>
    rw [step, queue_push]
    exact .enter _ _
  | remove t s => exact q.balances_remove t u s
  | popDue t now expiry => exact q.balances_popDue t u now expiry

theorem balances_run (q : TimerQueues) (u : Timer) (ops : List Op) :
    Balances (q.queue u) (ops.flatMap (Op.entering u)) (q.departed u ops) ((q.run ops).queue u) := by
  induction ops generalizing q with
  | nil => exact .refl _
  | cons op ops ih => exact (q.balances_step u op).trans (ih (q.step op))

/-- Whatever the queues hold, taking off what is due and removing a number do what they are for and
nothing else, and no history of pushes, removals and take-offs loses a number or makes one up. -/
theorem turnover_exact :
    (∀ (q : TimerQueues) (t : Timer) (now : Timestamp) (expiry : SeqNum → Option Timestamp),
      q.Pops t now expiry (q.popDue t now expiry).1 (q.popDue t now expiry).2) ∧
    (∀ (q : TimerQueues) (t : Timer) (s : SeqNum), q.Removes t s (q.remove? t s)) ∧
    ∀ (q : TimerQueues) (u : Timer) (ops : List Op),
      Balances (q.queue u) (ops.flatMap (Op.entering u)) (q.departed u ops) ((q.run ops).queue u) :=
  ⟨pops_popDue, removes_remove?, balances_run⟩

end ReliableMulticast.TimerQueues
