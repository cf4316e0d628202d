import Mathlib.Data.List.DropRight
import ReliableMulticast.Proofs.Ready

/-!
# What is readable, portion by portion

The readable part splits into portions: single numbers given up, and APDUs that the scan from their
first number finds complete (`Sound.exists_split`). A read takes the portions one after the other,
never finds anything else, and stops with the last APDU that it has room for
(`Sound.takeReady_takes`). The losses behind that one stay for the next read, so only room for one
more APDU than there are is sure to empty the readable part (`exists_portions`).
-/

namespace ReliableMulticast

/-- A part of a settled stretch: a number given up, or an APDU of so many packets. -/
inductive Portion where
  | lost
  | apdu (packets : Nat)
  deriving DecidableEq, Repr

namespace Portion

def size : Portion → Nat
  | .lost => 1
  | .apdu packets => packets

def isApdu : Portion → Bool
  | .lost => false
  | .apdu _ => true

/-- The numbers of all portions together. -/
def total (portions : List Portion) : Nat := (portions.map size).sum

def apdus (portions : List Portion) : Nat := portions.countP isApdu

/-- What stays behind if APDUs are taken as long as there is room, each with the losses before it. -/
def left : Nat → List Portion → List Portion
  | 0, portions => portions
  | _ + 1, [] => []
  | room + 1, .lost :: portions => left (room + 1) portions
  | room + 1, .apdu _ :: portions => left room portions

@[simp] theorem left_zero (portions : List Portion) : left 0 portions = portions := by
  cases portions <;> rfl

/-- The losses behind the last APDU. -/
def tail (portions : List Portion) : List Portion := portions.rtakeWhile (· = .lost)

theorem left_of_apdus_lt {portions : List Portion} {room : Nat} (h : apdus portions < room) :
    left room portions = [] := by
  induction portions generalizing room with
  | nil =>
    obtain ⟨room, rfl⟩ := Nat.exists_eq_add_of_lt h
    rfl
  | cons portion portions ih =>
    obtain ⟨room, rfl⟩ : ∃ n, room = n + 1 := ⟨room - 1, by omega⟩
    cases portion with
    | lost => exact ih h
    | apdu packets =>
      have hcount : apdus (.apdu packets :: portions) = apdus portions + 1 := List.countP_cons_of_pos rfl
      exact ih (by omega)

theorem tail_of_apdus_eq_zero {portions : List Portion} (h : apdus portions = 0) :
    tail portions = portions := by
  refine List.rtakeWhile_eq_self_iff.2 fun portion hp => ?_
  have := List.countP_eq_zero.1 h portion hp
  cases portion with
  | lost => rfl
  | apdu => exact absurd rfl this

theorem tail_cons {portion : Portion} {portions : List Portion}
    (h : portion.isApdu ∨ 0 < apdus portions) : tail (portion :: portions) = tail portions := by
  unfold tail List.rtakeWhile
  rw [List.reverse_cons, List.takeWhile_append]
  split
  next hall =>
    have hlost : ∀ p ∈ portions.reverse, decide (p = .lost) := by
      rw [← List.takeWhile_eq_self_iff]
      exact (List.takeWhile_prefix _).eq_of_length hall
    rcases h with h | h
    · cases portion with
      | lost => cases h
      | apdu =>
        rw [List.takeWhile_eq_self_iff.2 hlost]
        simp
    · obtain ⟨p, hp, hapdu⟩ := List.countP_pos_iff.1 h
      have := of_decide_eq_true (hlost p (List.mem_reverse.2 hp))
      subst this
      cases hapdu
  · rfl

theorem total_tail (portions : List Portion) : total (tail portions) = (tail portions).length := by
  have hlost : ∀ portion ∈ tail portions, portion = .lost := fun portion hp =>
    of_decide_eq_true (List.mem_rtakeWhile_imp (p := fun p : Portion => decide (p = .lost)) hp)
  generalize tail portions = losses at hlost
  induction losses with
  | nil => rfl
  | cons portion losses ih =>
    obtain rfl := hlost portion (List.mem_cons_self ..)
    rw [List.length_cons, ← ih fun p hp => hlost p (List.mem_cons_of_mem _ hp), Nat.add_comm]
    rfl

/-- With room for just the APDUs there are, the losses behind the last one stay. -/
theorem left_apdus (portions : List Portion) : left (apdus portions) portions = tail portions := by
  induction portions with
  | nil => rfl
  | cons portion portions ih =>
    cases portion with
    | lost =>
      change left (apdus portions) (.lost :: portions) = _
      cases hcount : apdus portions with
      | zero => exact (tail_of_apdus_eq_zero (show apdus (.lost :: portions) = 0 from hcount)).symm
      | succ n =>
        rw [tail_cons (.inr (by omega)), ← ih, hcount]
        rfl
    | apdu packets =>
      rw [tail_cons (.inl rfl), ← ih]
      exact congrArg (left · _) (List.countP_cons_of_pos rfl)

end Portion

/-! ### Splitting slots -/

/-- The slots from number `s` on split into the portions. -/
inductive Split : SeqNum → List Slot → List Portion → Prop
  | nil {s : SeqNum} : Split s [] []
  | lost {s : SeqNum} {slot : Slot} {rest : List Slot} {portions : List Portion}
      (lost : slot.state = .lost) (later : Split s.next rest portions) :
      Split s (slot :: rest) (.lost :: portions)
  | apdu {s : SeqNum} {apdu rest : List Slot} {portions : List Portion} (whole : WholeApdu s apdu)
      (later : Split (s + apdu.length) rest portions) :
      Split s (apdu ++ rest) (.apdu apdu.length :: portions)

theorem Settled.exists_split {s : SeqNum} {slots : List Slot} (h : Settled s slots) :
    ∃ portions, Split s slots portions := by
  induction h with
  | nil => exact ⟨[], .nil⟩
  | lost lost _ ih =>
    obtain ⟨portions, hsplit⟩ := ih
    exact ⟨.lost :: portions, .lost lost hsplit⟩
  | apdu whole _ ih =>
    obtain ⟨portions, hsplit⟩ := ih
    exact ⟨.apdu _ :: portions, .apdu whole hsplit⟩

namespace Split

variable {s : SeqNum} {slot : Slot} {slots apdu rest : List Slot} {portions : List Portion}

theorem total_eq (h : Split s slots portions) : Portion.total portions = slots.length := by
  induction h with
  | nil => rfl
  | lost _ _ ih =>
    rw [List.length_cons, ← ih, Nat.add_comm]
    rfl
  | apdu _ _ ih =>
    rw [List.length_append, ← ih]
    rfl

theorem eq_nil (h : Split s [] portions) : portions = [] := by
  generalize he : [] = slots at h
  cases h with
  | nil => rfl
  | lost => cases he
  | apdu whole _ =>
    have := whole.length_pos
    rw [(List.append_eq_nil_iff.1 he.symm).1] at this
    cases this

theorem of_lost (h : Split s (slot :: rest) portions) (lost : slot.state = .lost) :
    ∃ later, portions = .lost :: later ∧ Split s.next rest later := by
  generalize he : slot :: rest = slots at h
  cases h with
  | nil => cases he
  | lost _ hlater =>
    obtain ⟨-, rfl⟩ := List.cons.inj he
    exact ⟨_, rfl, hlater⟩
  | @apdu _ apdu _ _ whole _ =>
    cases apdu with
    | nil => exact absurd whole.length_pos (Nat.lt_irrefl 0)
    | cons head _ =>
      obtain ⟨rfl, -⟩ := List.cons.inj he
      exact absurd lost (SlotState.hasData_iff.1 (whole.hasData _ (List.mem_cons_self ..))).1

theorem of_apdu (h : Split s (apdu ++ rest) portions) (whole : WholeApdu s apdu) :
    ∃ later, portions = .apdu apdu.length :: later ∧ Split (s + apdu.length) rest later := by
  obtain ⟨head, more, rfl⟩ := List.exists_cons_of_length_pos whole.length_pos
  generalize he : head :: more ++ rest = slots at h
  cases h with
  | nil => cases he
  | lost lost _ =>
    obtain ⟨rfl, -⟩ := List.cons.inj he
    exact absurd lost (SlotState.hasData_iff.1 (whole.hasData _ (List.mem_cons_self ..))).1
  | apdu whole' hlater =>
    obtain ⟨rfl, rfl⟩ := whole.eq_of_append_eq whole' he
    exact ⟨_, rfl, hlater⟩

end Split

namespace Window

variable {w : Window} {s : SeqNum} {slot : Slot} {slots : List Slot} {portions : List Portion}
  {count : Nat}

/-! ### Splitting the readable part -/

/-- The packets of the stretch all arrived and were not delivered. -/
def Undelivered (w : Window) (s : SeqNum) (count : Nat) : Prop :=
  ∀ k, k < count → ∃ slot, w.slots.get? (s + k) = some slot ∧ slot.state = .haveData

/-- The numbers from `s` on split into the portions: a number given up, a packet that is an APDU of
its own, or the packets of an APDU that the scan from its first number finds complete. -/
inductive Splits (w : Window) : SeqNum → List Portion → Prop
  | nil {s : SeqNum} : w.Splits s []
  | lost {s : SeqNum} {slot : Slot} {portions : List Portion} (found : w.slots.get? s = some slot)
      (lost : slot.state = .lost) (later : w.Splits s.next portions) : w.Splits s (.lost :: portions)
  | single {s : SeqNum} {slot : Slot} {portions : List Portion}
      (found : w.slots.get? s = some slot) (held : slot.state = .haveData)
      (alone : slot.fragment = none) (later : w.Splits s.next portions) :
      w.Splits s (.apdu 1 :: portions)
  | fragments {s : SeqNum} {slot : Slot} {f : Fragment} {count : Nat} {portions : List Portion}
      (found : w.slots.get? s = some slot) (fragment : slot.fragment = some f)
      (held : w.Undelivered s count)
      (complete : w.scanApdu s f.totalLength.toNat = .complete count)
      (later : w.Splits (s + count) portions) : w.Splits s (.apdu count :: portions)

/-- The messages that the portions from `s` on make. -/
def messagesOf (w : Window) : SeqNum → List Portion → List Message
  | _, [] => []
  | s, .lost :: portions => w.messagesOf s.next portions
  | s, .apdu count :: portions =>
    ⟨s, count, w.joinPayloads (s.run count)⟩ :: w.messagesOf (s + count) portions

/-- The slots of a stretch, split as a list, split as numbers of the window too. -/
theorem splits_of_split (h : Split s slots portions) (inside : w.place s + slots.length ≤ w.slots.size)
    (here : w.slots.slice s slots.length = slots)
    (undelivered : ∀ slot ∈ slots, slot.state.delivered = false) : w.Splits s portions := by
  have hmax := w.slots.size_le_maxRing
  induction h with
  | nil => exact .nil
  | @lost s slot rest portions lost _ ih =>
    obtain ⟨head, found⟩ := SlotRing.exists_get? (contains_iff_place.2 (by
      rw [List.length_cons] at inside; omega : w.place s < w.slots.size))
    rw [List.length_cons, SlotRing.slice_succ found] at here
    obtain ⟨rfl, hrest⟩ := List.cons.inj here
    refine .lost found lost (ih ?_ hrest fun x hx => undelivered x (List.mem_cons_of_mem _ hx))
    rw [List.length_cons] at inside
    change w.place (s + 1) + rest.length ≤ _
    rw [w.place_add (by omega)]
    omega
  | @apdu s apdu rest portions whole _ ih =>
    have hpos := whole.length_pos
    rw [List.length_append] at inside
    have hlength : (w.slots.slice s apdu.length).length = apdu.length :=
      SlotRing.length_slice (by change w.place s + _ ≤ _; omega)
    rw [List.length_append, SlotRing.slice_add] at here
    obtain ⟨hapdu, hrest⟩ := List.append_inj here hlength
    have hlater := ih (by rw [w.place_add (by omega)]; omega) hrest
      fun x hx => undelivered x (List.mem_append_right _ hx)
    have held : w.Undelivered s apdu.length := by
      intro k hk
      have hget := SlotRing.getElem?_slice (r := w.slots) (s := s) (n := apdu.length)
        (by change w.place s + _ ≤ _; omega) hk
      rw [hapdu, List.getElem?_eq_getElem hk] at hget
      have hmem : apdu[k] ∈ apdu := List.getElem_mem hk
      exact ⟨apdu[k], hget.symm, SlotState.eq_haveData (whole.hasData _ hmem)
        (undelivered _ (List.mem_append_left _ hmem))⟩
    obtain ⟨head, found, hheld⟩ := held 0 hpos
    rw [SeqNum.add_zero] at found
    cases whole with
    | single _ alone =>
      rw [List.length_singleton, SlotRing.slice_succ found] at hapdu
      obtain ⟨rfl, -⟩ := List.cons.inj hapdu
      exact .single found hheld alone hlater
    | @fragmented total _ fragments =>
      have hcomplete : w.scanApdu s total = .complete apdu.length := by
        have hgap : s.gap w.next = apdu.length + (w.slots.size - (w.place s + apdu.length)) := by
          rw [gap_eq_place_sub (w := w) (by rw [place_next]; omega), place_next]
          omega
        refine scanApdu_eq_complete_iff.2
          ⟨apdu, w.slots.slice (s + apdu.length) (w.slots.size - (w.place s + apdu.length)), ?_, rfl,
            fragments⟩
        rw [slotsFrom_eq_slice (contains_iff_place.2 (by omega)), hgap, SlotRing.slice_add, hapdu]
      obtain ⟨first, more, f, rfl, hfragment, rfl⟩ := fragments.exists_head
      rw [List.length_cons, SlotRing.slice_succ found] at hapdu
      obtain ⟨rfl, -⟩ := List.cons.inj hapdu
      exact .fragments found hfragment held hcomplete hlater

/-- The readable part is made of portions. -/
theorem Sound.exists_split (h : w.Sound) :
    ∃ portions, Split w.commitTrail w.readable portions ∧ w.Splits w.commitTrail portions ∧
      Portion.total portions = w.commitTrail.gap w.commitLead := by
  obtain ⟨portions, hsplit⟩ := h.settled.exists_split
  have hgap := h.gap_readable
  have hlength := h.length_readable
  have hct := h.commitTrail_le
  have hcl := h.commitLead_le
  refine ⟨portions, hsplit, splits_of_split hsplit (by omega) (by rw [hlength]; rfl) ?_,
    hsplit.total_eq.trans hlength⟩
  intro slot hslot
  obtain ⟨k, hk, found⟩ := SlotRing.mem_slice.1 hslot
  refine (h.slots found).undelivered ?_
  rw [h.place_commitTrail_add hk]
  omega

/-! ### Taking portions -/

/-- Takes messages as `takeReady` does; none if the readable part holds anything else than a loss or
a whole APDU. -/
def takeReady? (room : Nat) : Nat → Window → Option (Window × Delivery)
  | 0, w => if w.commitTrail = w.commitLead ∨ room = 0 then some (w, .nothing .ok) else none
  | length + 1, w =>
    if w.commitTrail = w.commitLead ∨ room = 0 then some (w, .nothing .ok)
    else
      match w.slots.get? w.commitTrail with
      | none => none
      | some slot =>
        if slot.state = .lost then
          (takeReady? room length { w with commitTrail := w.commitTrail.next }).map
            fun (w, rest) => (w, rest.addLoss)
        else
          match w.apduCount? w.commitTrail slot with
          | none => none
          | some count =>
            let (w, message) := w.deliver count
            (takeReady? (room - 1) length w).map fun (w, rest) => (w, rest.addMessage message)

/-- Delivering changes nothing about what slots hold. -/
theorem joinPayloads_deliver (w : Window) (count : Nat) (numbers : List SeqNum) :
    (w.deliver count).1.joinPayloads numbers = w.joinPayloads numbers := by
  unfold joinPayloads
  congr 1
  funext bytes x
  have hpayload : ((w.deliver count).1.slots.get? x).bind Slot.payload =
      (w.slots.get? x).bind Slot.payload := by
    rw [get?_deliver]
    split
    · cases w.slots.get? x <;> rfl
    · rfl
  rw [hpayload]

theorem messagesOf_congr {w' : Window} (h : ∀ numbers, w'.joinPayloads numbers = w.joinPayloads numbers)
    (s : SeqNum) (portions : List Portion) : w'.messagesOf s portions = w.messagesOf s portions := by
  induction portions generalizing s with
  | nil => rfl
  | cons portion portions ih =>
    cases portion with
    | lost => exact ih s.next
    | apdu count => rw [messagesOf, messagesOf, h, ih]

/-- What is readable behind a loss that is passed. -/
theorem readable_passLost (unread : w.commitTrail ≠ w.commitLead)
    (found : w.slots.get? w.commitTrail = some slot) :
    w.readable = slot :: { w with commitTrail := w.commitTrail.next }.readable := by
  rw [readable, readable, ← gap_passLost unread, SlotRing.slice_succ found]

/-- What is readable behind an APDU that is delivered. -/
theorem Sound.readable_deliver (h : w.Sound) (unread : w.commitTrail ≠ w.commitLead)
    (found : w.slots.get? w.commitTrail = some slot) (held : slot.state ≠ .lost)
    (whole : w.apduCount? w.commitTrail slot = some count) :
    ∃ apdu, apdu.length = count ∧ WholeApdu w.commitTrail apdu ∧
      w.readable = apdu ++ (w.deliver count).1.readable := by
  obtain ⟨inside, hlength, hapdu, -⟩ := h.front_slice unread found held whole
  have hsize := h.size_le
  have hcl := h.commitLead_le
  have hgap := h.gap_readable
  have hnext : (w.deliver count).1.commitTrail = w.commitTrail + count :=
    congrArg Frame.commitTrail (frame_deliver w count)
  obtain ⟨-, hrest⟩ := h.gap_deliver unread found held whole
  refine ⟨w.slots.slice w.commitTrail count, hlength, hapdu, ?_⟩
  rw [readable, readable, ← hrest, Nat.add_comm, SlotRing.slice_add, hnext]
  rw [hnext] at hrest
  congr 1
  refine SlotRing.slice_congr fun k hk => ?_
  rw [get?_deliver, if_neg]
  rw [h.mem_run_commitTrail (by omega), SeqNum.add_add, w.place_add (by omega)]
  omega

/-- Nothing more is taken at the end of the readable part or without room. -/
theorem Sound.left_of_done (h : w.Sound) {room : Nat} (split : Split w.commitTrail w.readable portions)
    (done : w.commitTrail = w.commitLead ∨ room = 0) :
    (w.messagesOf w.commitTrail portions).take room = [] ∧
      w.commitTrail + Portion.total (Portion.left room portions) = w.commitLead := by
  have hall : w.commitTrail + Portion.total portions = w.commitLead := by
    rw [split.total_eq, h.length_readable, SeqNum.add_gap]
  rcases done with hend | rfl
  · have hread : w.readable = [] :=
      List.eq_nil_of_length_eq_zero (by rw [h.length_readable, hend, SeqNum.gap_self])
    obtain rfl := (hread ▸ split).eq_nil
    refine ⟨List.take_nil .., ?_⟩
    cases room <;> exact hall
  · rw [Portion.left_zero]
    exact ⟨List.take_zero .., hall⟩

/-- A read finds portions and nothing else, and takes them in order up to the last APDU that it has
room for. -/
theorem Sound.takeReady_takes (h : w.Sound) (length room : Nat)
    (split : Split w.commitTrail w.readable portions)
    (long : w.commitTrail.gap w.commitLead ≤ length) :
    takeReady? room length w = some (takeReady room length w) ∧
      (takeReady room length w).2.messages = (w.messagesOf w.commitTrail portions).take room ∧
      (takeReady room length w).1.commitTrail + Portion.total (Portion.left room portions) =
        w.commitLead := by
  induction length generalizing room w portions with
  | zero =>
    have done : w.commitTrail = w.commitLead ∨ room = 0 :=
      .inl (SeqNum.gap_eq_zero_iff.1 (by omega))
    obtain ⟨hmessages, hleft⟩ := h.left_of_done split done
    rw [takeReady?, if_pos done]
    exact ⟨rfl, hmessages.symm, hleft⟩
  | succ length ih =>
    rw [takeReady?, takeReady]
    split
    next done =>
      obtain ⟨hmessages, hleft⟩ := h.left_of_done split done
      exact ⟨rfl, hmessages.symm, hleft⟩
    next hgo =>
      obtain ⟨unread, hroom⟩ := not_or.1 hgo
      obtain ⟨room, rfl⟩ : ∃ n, room = n + 1 := ⟨room - 1, by omega⟩
      obtain ⟨slot, found, lost | ⟨held, count, hcount⟩⟩ := h.front_cases unread
      · rw [readable_passLost unread found] at split
        obtain ⟨later, rfl, hlater⟩ := split.of_lost lost
        have hrest := gap_passLost unread
        obtain ⟨hfinds, hmessages, hleft⟩ := ih (h.passLost unread found lost) (room + 1) hlater
          (by simp only; omega)
        simp only [found, if_pos lost, hfinds]
        refine ⟨rfl, hmessages.trans (congrArg (List.take (room + 1)) ?_), hleft⟩
        have same : ∀ numbers, { w with commitTrail := w.commitTrail.next }.joinPayloads numbers =
            w.joinPayloads numbers := fun _ => rfl
        exact messagesOf_congr same _ later
      · obtain ⟨apdu, rfl, whole, hread⟩ := h.readable_deliver unread found held hcount
        obtain ⟨later, rfl, hlater⟩ := (hread ▸ split).of_apdu whole
        have hframe := frame_deliver w apdu.length
        have hnext : (w.deliver apdu.length).1.commitTrail = w.commitTrail + apdu.length :=
          congrArg Frame.commitTrail hframe
        obtain ⟨hpos, hrest⟩ := h.gap_deliver unread found held hcount
        obtain ⟨hfinds, hmessages, hleft⟩ := ih (h.deliver unread found held hcount) room
          (hnext ▸ hlater) (by omega)
        rw [hnext, messagesOf_congr (w.joinPayloads_deliver apdu.length)] at hmessages
        simp only [found, if_neg held, hcount, Nat.add_sub_cancel, hfinds]
        refine ⟨rfl, ?_, hleft.trans (congrArg Frame.commitLead hframe)⟩
        rw [messagesOf, List.take_succ_cons, ← hmessages]
        rfl

/-! ### What a read leaves -/

/-- Reads as `readReady` does; none if the readable part holds anything else than a loss or a whole
APDU. -/
def readReady? (w : Window) (count : Nat) : Option (Window × Delivery) :=
  (takeReady? count (w.commitTrail.gap w.commitLead) { w with unreportedLosses := 0 }).map
    fun (read, delivery) =>
      (read.resolve, { delivery with losses := w.unreportedLosses + delivery.losses })

theorem length_messagesOf (w : Window) (s : SeqNum) (portions : List Portion) :
    (w.messagesOf s portions).length = Portion.apdus portions := by
  induction portions generalizing s with
  | nil => rfl
  | cons portion portions ih =>
    cases portion with
    | lost => exact ih s.next
    | apdu count =>
      rw [messagesOf, List.length_cons, ih]
      exact (List.countP_cons_of_pos rfl).symm

theorem Sound.readReady_takes (h : w.Sound) (split : Split w.commitTrail w.readable portions)
    (count : Nat) :
    w.readReady? count = some (w.readReady count) ∧
      (w.readReady count).2.messages = (w.messagesOf w.commitTrail portions).take count ∧
      (w.readReady count).1.commitTrail + Portion.total (Portion.left count portions) =
        w.commitLead := by
  obtain ⟨hfinds, hmessages, hleft⟩ :=
    h.report.takeReady_takes (w.commitTrail.gap w.commitLead) count split (Nat.le_refl _)
  refine ⟨?_, hmessages.trans (congrArg (List.take count) ?_), ?_⟩
  · rw [readReady?, hfinds]
    rfl
  · have same : ∀ numbers, { w with unreportedLosses := 0 }.joinPayloads numbers =
        w.joinPayloads numbers := fun _ => rfl
    exact messagesOf_congr same _ portions
  · exact (congrArg (· + _) (congrArg Frame.commitTrail (frame_resolve _))).trans hleft

/-- The readable part of a window that is not shut down is made of numbers given up and of complete
APDUs that were not delivered. A read finds nothing else there. With room for all the APDUs it hands
out all of them, with room for one more it leaves nothing, and with room for no more than these it
leaves the losses behind the last one. -/
theorem exists_portions (tsi : Tsi) (config : ValidConfig) {ops : List Op}
    (live : ((create tsi config).run ops).isGone = false) :
    let w := (create tsi config).run ops
    ∃ portions, w.Splits w.commitTrail portions ∧
      Portion.total portions = w.commitTrail.gap w.commitLead ∧
      ∀ count, w.readReady? count = some (w.read count) ∧
        (Portion.apdus portions ≤ count →
          (w.read count).2.messages = w.messagesOf w.commitTrail portions) ∧
        (Portion.apdus portions < count → (w.read count).1.commitTrail = w.commitLead) ∧
        (Portion.apdus portions = count →
          (w.read count).1.commitTrail + (Portion.tail portions).length = w.commitLead) := by
  intro w
  obtain ⟨h, -⟩ := sound_run (sound_create tsi config) live
  obtain ⟨portions, hsplit, hsplits, htotal⟩ := Sound.exists_split h
  refine ⟨portions, hsplits, htotal, fun count => ?_⟩
  obtain ⟨hfinds, hmessages, hleft⟩ := Sound.readReady_takes h hsplit count
  rw [show w.read count = w.readReady count from whileLive_of_live live]
  refine ⟨hfinds, fun hle => ?_, fun hlt => ?_, fun heq => ?_⟩
  · rw [hmessages, List.take_of_length_le (by rwa [length_messagesOf])]
  · rw [← hleft, Portion.left_of_apdus_lt hlt]
    exact (SeqNum.add_zero _).symm
  · rw [← hleft, ← heq, Portion.left_apdus, Portion.total_tail]

/-- One message with a loss behind it. -/
def lossBehind : List Op := [smallPush 0 none 1, .updateStatus 0 1 0 0 0, .markLost 1]

theorem exists_portions_small :
    ((create smallTsi smallConfig).run lossBehind).isGone = false ∧
    let w := (create smallTsi smallConfig).run lossBehind
    ∃ portions, w.Splits w.commitTrail portions ∧
      Portion.total portions = w.commitTrail.gap w.commitLead ∧
      ∀ count, w.readReady? count = some (w.read count) ∧
        (Portion.apdus portions ≤ count →
          (w.read count).2.messages = w.messagesOf w.commitTrail portions) ∧
        (Portion.apdus portions < count → (w.read count).1.commitTrail = w.commitLead) ∧
        (Portion.apdus portions = count →
          (w.read count).1.commitTrail + (Portion.tail portions).length = w.commitLead) := by
  have live : ((create smallTsi smallConfig).run lossBehind).isGone = false := by decide +kernel
  exact ⟨live, exists_portions smallTsi smallConfig live⟩

/-- Room for just the APDUs there are is not enough to empty the readable part. -/
theorem not_read_empties :
    ¬ ∀ (ops : List Op) (portions : List Portion) (count : Nat),
      let w := (create smallTsi smallConfig).run ops
      w.isGone = false → w.Splits w.commitTrail portions →
        Portion.total portions = w.commitTrail.gap w.commitLead →
        Portion.apdus portions ≤ count → (w.read count).1.commitTrail = w.commitLead := by
  intro h
  have first : ((create smallTsi smallConfig).run lossBehind).slotIs 0
      fun slot => slot.state = .haveData ∧ slot.fragment = none := by decide +kernel
  have second : ((create smallTsi smallConfig).run lossBehind).slotIs 1 (·.state = .lost) := by
    decide +kernel
  obtain ⟨head, found, hhead⟩ := (Option.any_eq_true _ _).1 first
  obtain ⟨next, found', hnext⟩ := (Option.any_eq_true _ _).1 second
  obtain ⟨held, alone⟩ := of_decide_eq_true hhead
  have splits : ((create smallTsi smallConfig).run lossBehind).Splits 0 [.apdu 1, .lost] :=
    .single found held alone (.lost found' (of_decide_eq_true hnext) .nil)
  have trail : ((create smallTsi smallConfig).run lossBehind).commitTrail = 0 := by decide +kernel
  have lead : ((create smallTsi smallConfig).run lossBehind).commitLead = 2 := by decide +kernel
  have hempty := h lossBehind [.apdu 1, .lost] 1 (by decide +kernel) (trail ▸ splits)
    (by rw [trail, lead]; rfl) (by decide)
  have left : (((create smallTsi smallConfig).run lossBehind).read 1).1.commitTrail = 1 := by
    decide +kernel
  rw [left, lead] at hempty
  cases hempty

end Window

end ReliableMulticast
