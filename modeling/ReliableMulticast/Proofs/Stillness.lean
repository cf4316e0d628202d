import ReliableMulticast.Proofs.Presence
import ReliableMulticast.Proofs.Timekeeping

/-!
# What leaves the timers alone

Only sweeps and confirmations end timers or start them anew. All other operations leave the requests
that a slot counts as they are and its timer running, or stop it (`GoesOn`), and add at most slots
for numbers that were not in the window (`Grows`), which begin to wait at the time of the operation
(`grows_step`).
-/

namespace ReliableMulticast

namespace Slot

variable {old mid new slot : Slot}

/-- The new slot counts the same requests, and its timer runs on as it did or has stopped. -/
structure GoesOn (old new : Slot) : Prop where
  created : new.created = old.created
  naks : new.naks = old.naks
  ncfRetries : new.ncfRetries = old.ncfRetries
  dataRetries : new.dataRetries = old.dataRetries
  timer : new.timer = old.timer ∨ new.timer = none
  expiryOf : new.expiryOf = old.expiryOf

namespace GoesOn

theorem refl (slot : Slot) : slot.GoesOn slot := ⟨rfl, rfl, rfl, rfl, .inl rfl, rfl⟩

theorem trans (h : old.GoesOn mid) (h' : mid.GoesOn new) : old.GoesOn new where
  created := h'.created.trans h.created
  naks := h'.naks.trans h.naks
  ncfRetries := h'.ncfRetries.trans h.ncfRetries
  dataRetries := h'.dataRetries.trans h.dataRetries
  timer := by
    rcases h'.timer with ht | ht
    · rw [ht]
      exact h.timer
    · exact .inr ht
  expiryOf := h'.expiryOf.trans h.expiryOf

/-- A timer that still runs has its old expiry. -/
theorem expiry_eq (h : old.GoesOn new) {t : Timer} (runs : new.timer = some t) :
    old.timer = some t ∧ new.expiry = old.expiry := by
  have hold : old.timer = some t := by
    rcases h.timer with ht | ht
    · rw [← ht, runs]
    · rw [ht] at runs
      cases runs
  exact ⟨hold, by rw [Slot.expiry, Slot.expiry, runs, hold, h.expiryOf]⟩

theorem lose (slot : Slot) : slot.GoesOn slot.lose := by
  unfold Slot.lose
  split
  · exact .refl slot
  · exact ⟨rfl, rfl, rfl, rfl, .inr rfl, rfl⟩

theorem retain (slot : Slot) : slot.GoesOn slot.retain := by
  rcases slot.retain_cases with he | ⟨-, he⟩ <;> rw [he]
  · exact .refl slot
  · exact ⟨rfl, rfl, rfl, rfl, .inl rfl, rfl⟩

theorem dropPayload (slot : Slot) : slot.GoesOn slot.dropPayload := by
  rcases slot.dropPayload_cases with he | ⟨-, he⟩ <;> rw [he]
  · exact .refl slot
  · exact ⟨rfl, rfl, rfl, rfl, .inl rfl, rfl⟩

end GoesOn

/-- The slot is a new one: nothing was requested, and if its packet is missing the first wait began at
`now`. -/
structure IsFresh (c : WindowConfig) (now : Timestamp) (slot : Slot) : Prop where
  naks : slot.naks = 0
  ncfRetries : slot.ncfRetries = 0
  dataRetries : slot.dataRetries = 0
  timer : slot.timer = none ∨ slot.timer = some .backOff ∧ slot.backOffExpiry = now + c.backOff

theorem IsFresh.goesOn {c : WindowConfig} {now : Timestamp} (h : old.IsFresh c now)
    (h' : old.GoesOn new) : new.IsFresh c now where
  naks := h'.naks.trans h.naks
  ncfRetries := h'.ncfRetries.trans h.ncfRetries
  dataRetries := h'.dataRetries.trans h.dataRetries
  timer := by
    rcases h'.timer with ht | ht
    · refine h.timer.imp (ht.trans ·) fun ⟨hb, he⟩ => ⟨ht.trans hb, ?_⟩
      rw [← he]
      exact congrFun h'.expiryOf .backOff
    · exact .inl ht

end Slot

namespace TimerQueues

theorem sublist_erase (q : TimerQueues) (t u : Timer) (s : SeqNum) :
    ((q.erase t s).queue u).Sublist (q.queue u) := by
  rw [erase, queue_set]
  split
  next hu =>
    subst hu
    exact List.erase_sublist
  · exact .refl _

theorem sublist_unqueue (q : TimerQueues) (slot : Slot) (u : Timer) :
    ((q.unqueue slot).queue u).Sublist (q.queue u) := by
  unfold unqueue
  split
  · exact .refl _
  · exact q.sublist_erase _ u _

end TimerQueues

namespace Window

variable {w v w' : Window} {s x : SeqNum} {slot : Slot} {now : Timestamp}

/-! ### Giving up -/

/-- Some slots were given up and left the queues, and nothing else happened to slots and queues. -/
structure OnlyLoses (w w' : Window) : Prop where
  slots : ∀ {x new}, w'.slots.get? x = some new →
    ∃ old, w.slots.get? x = some old ∧ (new = old ∨ new = old.lose)
  queues : ∀ t, (w'.queues.queue t).Sublist (w.queues.queue t)

namespace OnlyLoses

theorem of_slots_eq (hslots : w'.slots = w.slots) (hqueues : w'.queues = w.queues) :
    w.OnlyLoses w' :=
  ⟨fun {_ new} hs => ⟨new, hslots ▸ hs, .inl rfl⟩, fun _ => hqueues ▸ .refl _⟩

theorem refl (w : Window) : w.OnlyLoses w := of_slots_eq rfl rfl

theorem trans (h : w.OnlyLoses v) (h' : v.OnlyLoses w') : w.OnlyLoses w' := by
  refine ⟨fun hs => ?_, fun t => (h'.queues t).trans (h.queues t)⟩
  obtain ⟨mid, hmid, hnew⟩ := h'.slots hs
  obtain ⟨old, hold, hmid'⟩ := h.slots hmid
  refine ⟨old, hold, ?_⟩
  rcases hnew with rfl | rfl
  · exact hmid'
  · rcases hmid' with rfl | rfl
    · exact .inr rfl
    · exact .inr old.lose_lose

end OnlyLoses

theorem onlyLoses_giveUpSlot (w : Window) (s : SeqNum) : w.OnlyLoses (w.giveUpSlot s) := by
  refine ⟨fun hs => ?_, fun t => ?_⟩
  · obtain ⟨old, hold, hnew⟩ := get?_giveUpSlot_cases hs
    exact ⟨old, hold, hnew.imp_right And.right⟩
  · unfold giveUpSlot
    split
    · exact .refl _
    · split
      · exact .refl _
      · exact TimerQueues.sublist_unqueue _ _ t

theorem onlyLoses_foldl {change : Window → SeqNum → Window}
    (h : ∀ (w : Window) (s : SeqNum), w.OnlyLoses (change w s)) (numbers : List SeqNum) (w : Window) :
    w.OnlyLoses (numbers.foldl change w) := by
  induction numbers generalizing w with
  | nil => exact .refl w
  | cons s numbers ih => exact (h w s).trans (ih _)

theorem onlyLoses_giveUpMember (first : SeqNum) (w : Window) (s : SeqNum) :
    w.OnlyLoses (giveUpMember first w s) := by
  unfold giveUpMember
  split
  · exact w.onlyLoses_giveUpSlot s
  · exact .refl w

theorem onlyLoses_loseApdu (w : Window) (s : SeqNum) : w.OnlyLoses (w.loseApdu s) := by
  have here := w.onlyLoses_giveUpSlot s
  cases hf : (w.slots.get? s).bind Slot.fragment with
  | none => rwa [loseApdu_of_none hf]
  | some f =>
    rw [loseApdu_of_some hf]
    exact here.trans (onlyLoses_foldl (onlyLoses_giveUpMember f.apduFirst) _ _)

theorem onlyLoses_loseAll (numbers : List SeqNum) (w : Window) :
    w.OnlyLoses (numbers.foldl loseApdu w) :=
  onlyLoses_foldl onlyLoses_loseApdu numbers w

theorem onlyLoses_resolveStep (hstep : w.resolveStep? = some w') : w.OnlyLoses w' := by
  have counted : w.OnlyLoses { w with counters := w.counters.addMalformed } := .of_slots_eq rfl rfl
  obtain ⟨count, rfl⟩ | rfl | rfl | rfl := resolveStep?_cases hstep
  · exact .of_slots_eq rfl rfl
  · exact w.onlyLoses_giveUpSlot w.commitLead
  · exact w.onlyLoses_loseApdu w.commitLead
  · exact counted.trans (onlyLoses_loseApdu _ w.commitLead)

theorem onlyLoses_resolveSteps (steps : Nat) (w : Window) : w.OnlyLoses (resolveSteps steps w) :=
  resolveSteps_of_step .refl .trans onlyLoses_resolveStep steps w

theorem onlyLoses_resolve (w : Window) : w.OnlyLoses w.resolve := onlyLoses_resolveSteps _ w

/-! ### Slots that go on -/

/-- No slot came in, and each slot goes on or has stopped and left its queue. -/
structure GoesOn (w w' : Window) : Prop where
  slots : ∀ {x new}, w'.slots.get? x = some new →
    ∃ old, w.slots.get? x = some old ∧ old.GoesOn new
  queues : ∀ t, (w'.queues.queue t).Sublist (w.queues.queue t)

theorem OnlyLoses.goesOn (h : w.OnlyLoses w') : w.GoesOn w' := by
  refine ⟨fun hs => ?_, h.queues⟩
  obtain ⟨old, hold, hnew⟩ := h.slots hs
  refine ⟨old, hold, ?_⟩
  rcases hnew with rfl | rfl
  · exact .refl _
  · exact .lose old

namespace GoesOn

theorem refl (w : Window) : w.GoesOn w := (OnlyLoses.refl w).goesOn

theorem of_slots_eq (hslots : w'.slots = w.slots) (hqueues : w'.queues = w.queues) : w.GoesOn w' :=
  (OnlyLoses.of_slots_eq hslots hqueues).goesOn

theorem trans (h : w.GoesOn v) (h' : v.GoesOn w') : w.GoesOn w' := by
  refine ⟨fun hs => ?_, fun t => (h'.queues t).trans (h.queues t)⟩
  obtain ⟨mid, hmid, hnew⟩ := h'.slots hs
  obtain ⟨old, hold, hgoes⟩ := h.slots hmid
  exact ⟨old, hold, hgoes.trans hnew⟩

theorem resolve (h : w.GoesOn v) : w.GoesOn v.resolve := h.trans v.onlyLoses_resolve.goesOn

theorem of_none (hslots : ∀ x, w'.slots.get? x = none) (hqueues : w'.queues = .empty) :
    w.GoesOn w' := by
  refine ⟨fun {x _} hs => ?_, fun t => ?_⟩
  · rw [hslots] at hs
    cases hs
  · rw [hqueues, TimerQueues.queue_empty]
    exact List.nil_sublist _

theorem modify {change : Slot → Slot}
    (h : ∀ slot, w.slots.get? s = some slot → slot.GoesOn (change slot)) :
    w.GoesOn (w.modify s change) := by
  refine ⟨fun hs => ?_, fun t => .refl _⟩
  obtain ⟨old, hold, ⟨-, rfl⟩ | ⟨rfl, rfl⟩⟩ := get?_modify_cases change hs
  · exact ⟨_, hold, .refl _⟩
  · obtain ⟨h1, h2, h3, h4, h5, h6⟩ := h old hold
    exact ⟨old, hold, ⟨h1, h2, h3, h4, h5, h6⟩⟩

/-- A number whose slot goes on was in the window. -/
theorem contains (h : w.GoesOn w') (hx : w'.slots.Contains x) : w.slots.Contains x := by
  obtain ⟨new, hnew⟩ := SlotRing.exists_get? hx
  obtain ⟨old, hold, -⟩ := h.slots hnew
  exact SlotRing.isSome_get?_iff.1 (by rw [hold]; rfl)

end GoesOn

/-! ### Making room -/

theorem goesOn_evictTrail (w : Window) : w.GoesOn w.evictTrail := by
  cases hpop : w.slots.popTrail? with
  | none =>
    have hsame : w.evictTrail = w := by rw [evictTrail, hpop]
    rw [hsame]
    exact .refl w
  | some popped =>
    obtain ⟨slot, slots⟩ := popped
    obtain ⟨hslots, hqueues⟩ : w.evictTrail.slots = slots ∧
        w.evictTrail.queues = w.queues.unqueue slot := by
      rw [evictTrail, hpop]
      simp only
      split <;> exact ⟨rfl, rfl⟩
    refine ⟨fun {x new} hs => ?_, fun t => ?_⟩
    · rw [hslots] at hs
      exact ⟨new, get?_of_popTrail? hpop hs, .refl new⟩
    · rw [hqueues]
      exact w.queues.sublist_unqueue slot t

theorem goesOn_evict (n : Nat) (w : Window) : w.GoesOn (evict n w) := by
  induction n generalizing w with
  | zero => exact .refl w
  | succ n ih => exact w.goesOn_evictTrail.trans (ih _)

theorem goesOn_skipTo (w : Window) (target : SeqNum) : w.GoesOn (w.skipTo target) := by
  unfold skipTo
  split
  · refine ⟨fun {x _} hs => ?_, fun t => .refl _⟩
    cases (SlotRing.get?_reset w.slots target x).symm.trans hs
  · exact .refl w

theorem goesOn_makeRoom (w : Window) (last : SeqNum) : w.GoesOn (w.makeRoom last) := by
  have clamped : ∀ v : Window, v.GoesOn v.clampCommit := fun _ => .of_slots_eq rfl rfl
  unfold makeRoom
  exact ((goesOn_evict _ w).trans (goesOn_skipTo _ _)).trans (clamped _)

/-! ### New slots -/

/-- Slots go on or have stopped, and what was not in the window before begins to wait at `now`. -/
structure Grows (w w' : Window) (now : Timestamp) : Prop where
  slots : ∀ {x new}, w'.slots.get? x = some new →
    (∃ old, w.slots.get? x = some old ∧ old.GoesOn new) ∨
      ¬ w.slots.Contains x ∧ new.IsFresh w.config.1 now
  queues : ∀ t, ∃ added, (w'.queues.queue t).Sublist (w.queues.queue t ++ added) ∧
    ∀ x ∈ added, t = .backOff ∧ (w'.slots.Contains x → ¬ w.slots.Contains x)

namespace GoesOn

theorem grows (h : w.GoesOn w') (now : Timestamp) : w.Grows w' now := by
  refine ⟨fun hs => .inl (h.slots hs), fun t => ⟨[], ?_, fun x hx => absurd hx List.not_mem_nil⟩⟩
  rw [List.append_nil]
  exact h.queues t

end GoesOn

namespace Grows

/-- A number that is in the window before and after must be there in between. -/
theorem trans (h : w.Grows v now) (h' : v.Grows w' now) (config : v.config = w.config)
    (between : ∀ x, w.slots.Contains x → w'.slots.Contains x → v.slots.Contains x) :
    w.Grows w' now := by
  refine ⟨fun {x new} hs => ?_, fun t => ?_⟩
  · rcases h'.slots hs with ⟨mid, hmid, hnew⟩ | ⟨hnot, hfresh⟩
    · refine (h.slots hmid).imp ?_ (And.imp_right (·.goesOn hnew))
      rintro ⟨old, hold, hgoes⟩
      exact ⟨old, hold, hgoes.trans hnew⟩
    · rw [config] at hfresh
      have hx : w'.slots.Contains x := SlotRing.isSome_get?_iff.1 (by rw [hs]; rfl)
      exact .inr ⟨fun hold => hnot (between x hold hx), hfresh⟩
  · obtain ⟨first, hsub, hfirst⟩ := h.queues t
    obtain ⟨second, hsub', hsecond⟩ := h'.queues t
    refine ⟨first ++ second, ?_, fun x hx => ?_⟩
    · rw [← List.append_assoc]
      exact hsub'.trans (hsub.append_right second)
    · rcases List.mem_append.1 hx with hx | hx
      · obtain ⟨ht, hnew⟩ := hfirst x hx
        exact ⟨ht, fun hafter hbefore => hnew (between x hbefore hafter) hbefore⟩
      · obtain ⟨ht, hnew⟩ := hsecond x hx
        exact ⟨ht, fun hafter hbefore => hnew hafter (between x hbefore hafter)⟩

theorem goesOn (h : w.Grows v now) (h' : v.GoesOn w') : w.Grows w' now := by
  refine ⟨fun hs => ?_, fun t => ?_⟩
  · obtain ⟨mid, hmid, hnew⟩ := h'.slots hs
    refine (h.slots hmid).imp ?_ (And.imp_right (·.goesOn hnew))
    rintro ⟨old, hold, hgoes⟩
    exact ⟨old, hold, hgoes.trans hnew⟩
  · obtain ⟨added, hsub, hnew⟩ := h.queues t
    exact ⟨added, (h'.queues t).trans hsub, fun x hx =>
      ⟨(hnew x hx).1, fun hafter => (hnew x hx).2 (h'.contains hafter)⟩⟩

theorem resolve (h : w.Grows v now) : w.Grows v.resolve now := h.goesOn v.onlyLoses_resolve.goesOn

end Grows

theorem grows_counters (w : Window) (counters : Counters) (now : Timestamp) :
    w.Grows { w with counters } now := by
  have same : w.GoesOn { w with counters } := .of_slots_eq rfl rfl
  exact same.grows now

theorem grows_addPlaceholders (stop : SeqNum) (now : Timestamp)
    (room : w.slots.size + w.next.gap stop ≤ w.capacity) :
    w.Grows (w.addPlaceholders stop now) now := by
  have hget := get?_addPlaceholders stop now room
  have hnew : ∀ x ∈ w.next.upTo stop, ¬ w.slots.Contains x := fun x hx =>
    not_contains_of_mem_upTo room hx
  refine ⟨fun {x new} hs => ?_, fun t => ?_⟩
  · rw [hget] at hs
    split at hs
    next hx =>
      obtain rfl := Option.some.inj hs
      exact .inr ⟨hnew x hx, rfl, rfl, rfl, .inr ⟨rfl, rfl⟩⟩
    · exact .inl ⟨new, hs, .refl new⟩
  · have hqueues : (w.addPlaceholders stop now).queues =
        w.queues.pushAll .backOff (w.next.upTo stop) := rfl
    rw [hqueues, TimerQueues.pushAll, TimerQueues.queue_set]
    split
    next ht =>
      subst ht
      exact ⟨w.next.upTo stop, .refl _, fun x hx => ⟨rfl, fun _ => hnew x hx⟩⟩
    · refine ⟨[], ?_, fun x hx => absurd hx List.not_mem_nil⟩
      rw [List.append_nil]

theorem grows_append (now : Timestamp) (next : slot.sequence = w.next)
    (room : w.slots.size < w.capacity) (fresh : slot.IsFresh w.config.1 now) :
    w.Grows (w.append slot) now := by
  refine ⟨fun {x new} hs => ?_, fun t => ⟨[], ?_, fun x hx => absurd hx List.not_mem_nil⟩⟩
  · rw [Sound.get?_append next room] at hs
    split at hs
    next hx =>
      obtain rfl := Option.some.inj hs
      refine .inr ⟨fun hc => ?_, fresh⟩
      rw [hx, contains_iff_place, place_next] at hc
      exact Nat.lt_irrefl _ hc
    · exact .inl ⟨new, hs, .refl new⟩
  · rw [List.append_nil]
    exact .refl _

/-- Where numbers leave only to make room, the reader goes on by as many as leave. -/
theorem advance_of_shed {n : Nat} {notes : List Note} (h : Note.Shed n notes) :
    Note.advance notes ≤ n := by
  have hpasses := Note.passes_le_told notes
  have htold := h.told
  have hdrops := h.drops
  rw [Note.advance, h.messages]
  simp only [List.map_nil, List.sum_nil]
  omega

theorem grows_advanceLead (hs : w.Sound) (defined : w.isDefined) {lead : SeqNum}
    (ahead : lead.After w.lead) (now : Timestamp) : w.Grows (w.advanceLead lead now) now := by
  rw [after_lead_iff] at ahead
  obtain ⟨notes, hshed, hmoves, hroom⟩ := makeRoom_spec hs defined ahead
  have hsize : w.slots.size ≤ w.capacity := w.slots.size_le
  have room := room_makeRoom hs defined ahead
  have hadvance := advance_of_shed hshed
  obtain ⟨hfill, -, -⟩ := addPlaceholders_spec (hmoves.sound hs) (hmoves.keeps.isDefined defined)
    lead.next now room
  have hgrows := grows_addPlaceholders lead.next now room
  refine ((w.goesOn_makeRoom lead).grows now).trans hgrows hmoves.keeps.config fun x hx hx' => ?_
  refine hmoves.contains_between hfill hs defined ?_ hx hx'
  rw [List.append_nil]
  omega

theorem grows_extend (hs : w.Sound) (defined : w.isDefined) {p : Packet}
    (ahead : p.sequence.After w.lead) (now : Timestamp) : w.Grows (w.extend p now) now := by
  rw [after_lead_iff] at ahead
  obtain ⟨notes, hshed, hmoves, hroom⟩ := makeRoom_spec hs defined ahead
  have hs' := hmoves.sound hs
  have hdefined := hmoves.keeps.isDefined defined
  have hsize : w.slots.size ≤ w.capacity := w.slots.size_le
  have hcap := hmoves.capacity_eq hs
  have hadvance := advance_of_shed hshed
  obtain ⟨hfill, hnext, hlength⟩ := addPlaceholders_spec hs' hdefined p.sequence now (by omega)
  have hcap' := hfill.capacity_eq hs'
  have store := Move.addPacket p now (hfill.keeps.isDefined hdefined) hnext.symm (by omega)
  have hgrows := grows_addPlaceholders (w := w.makeRoom p.sequence) p.sequence now (by omega)
  have fresh : (Slot.ofPacket p now).IsFresh ((w.makeRoom p.sequence).addPlaceholders p.sequence
      now).config.1 now := ⟨rfl, rfl, rfl, .inl rfl⟩
  have hstored := grows_append now hnext.symm (by omega) fresh
  have hlater := hfill.silent_trans store.moves
  refine ((w.goesOn_makeRoom p.sequence).grows now).trans (hgrows.trans hstored hfill.keeps.config
    fun x hx hx' => ?_) hmoves.keeps.config fun x hx hx' => ?_
  · refine hfill.contains_between store.moves hs' hdefined (Nat.zero_le _) hx hx'
  · refine hmoves.contains_between hlater hs defined ?_ hx hx'
    rw [Note.advance_append]
    exact Nat.le_trans (Nat.add_le_add_right hadvance 0) (by omega)

theorem goesOn_ensureDefined (w : Window) (trail : SeqNum) : w.GoesOn (w.ensureDefined trail) := by
  unfold ensureDefined
  split
  · exact .refl w
  · exact .of_none (SlotRing.get?_reset w.slots trail) rfl

/-- What a window grows to that gets its place before. -/
theorem Grows.of_ensureDefined (hs : w.Sound) (h : (w.ensureDefined s).Grows w' now) :
    w.Grows w' now := by
  refine ((w.goesOn_ensureDefined s).grows now).trans h ?_ fun x hx _ => ?_
  · unfold ensureDefined
    split <;> rfl
  · unfold ensureDefined
    split
    · exact hx
    next hd =>
      have := (hs.blank (Bool.eq_false_iff.2 hd)).1
      rw [contains_iff_place] at hx
      omega

/-! ### Packets -/

theorem goesOn_fillSlot {p : Packet} (source : Option RepairSource) (now : Timestamp) :
    w.GoesOn (w.fillSlot slot p source now) := by
  refine ⟨fun hs => ?_, fun t => w.queues.sublist_unqueue slot t⟩
  obtain ⟨old, hold, ⟨-, rfl⟩ | ⟨rfl, rfl⟩⟩ :=
    get?_modify_cases (fun slot => slot.fill p.payload p.fragment (source = some .parity)) hs
  · exact ⟨_, hold, .refl _⟩
  · exact ⟨old, hold, rfl, rfl, rfl, rfl, .inr rfl, rfl⟩

theorem grows_acceptData (hs : w.Sound) (p : Packet) (source : Option RepairSource)
    (now : Timestamp) : w.Grows (w.acceptData p source now).1 now := by
  cases hm : w.isMalformed p with
  | true =>
    rw [acceptData_of_malformed hm]
    exact w.grows_counters _ now
  | false =>
    obtain ⟨-, hdefined, hsound, -⟩ := ensureDefined_spec hs p.sequence
    refine .of_ensureDefined hs (s := p.sequence) ?_
    have htakes := takes_acceptData hm source now
    generalize w.acceptData p source now = answer at htakes
    generalize w.ensureDefined p.sequence = w at *
    cases htakes with
    | behind | lost => exact (GoesOn.refl w).grows now
    | duplicate => exact w.grows_counters _ now
    | ahead after => exact (grows_extend hsound hdefined after now).resolve
    | missing => exact (goesOn_fillSlot source now).resolve.grows now

theorem goesOn_storeParity (w : Window) (p : Packet) (outcome : Outcome) :
    w.GoesOn (w.storeParity p outcome).1 := by
  have stores := w.storesParity p outcome
  generalize w.storeParity p outcome = answer at *
  cases stores with
  | lost => exact .refl w
  | duplicate => exact .of_slots_eq rfl rfl
  | @keep slot kept _ _ _ _ keeps =>
    have goes : w.GoesOn kept := by
      rw [keeps]
      exact .modify fun _ _ => ⟨rfl, rfl, rfl, rfl, .inl rfl, rfl⟩
    exact goes.resolve

theorem grows_acceptParity (hs : w.Sound) (p : Packet) (now : Timestamp) :
    w.Grows (w.acceptParity p now).1 now := by
  unfold acceptParity
  split
  · exact w.grows_counters _ now
  · obtain ⟨-, hdefined, hsound, -⟩ := ensureDefined_spec hs (w.groupFirst p.sequence)
    refine .of_ensureDefined hs (s := w.groupFirst p.sequence) ?_
    simp only
    generalize w.ensureDefined (w.groupFirst p.sequence) = w at *
    split
    · exact (GoesOn.refl w).grows now
    · split
      next hafter =>
        exact (grows_advanceLead hsound hdefined hafter now).goesOn (goesOn_storeParity _ p _)
      · exact (w.goesOn_storeParity p _).grows now

/-! ### News from the sender -/

theorem goesOn_announceGroups (w : Window) (size shift : Nat) :
    w.GoesOn (w.announceGroups size shift) := by
  rcases w.announceGroups_cases size shift with he | ⟨-, -, he⟩ <;> rw [he]
  · exact .refl w
  · exact .of_slots_eq rfl rfl

theorem goesOn_followTrail (w : Window) (trail : SeqNum) : w.GoesOn (w.followTrail trail) := by
  unfold followTrail
  split
  · have heard : w.OnlyLoses { w with senderTrail := trail } := .of_slots_eq rfl rfl
    exact (heard.trans (onlyLoses_loseAll _ _)).goesOn
  · exact .refl w

theorem grows_followLead (hs : w.Sound) (defined : w.isDefined) (lead : SeqNum) (now : Timestamp) :
    w.Grows (w.followLead lead now).1 now := by
  unfold followLead
  split
  next hafter => exact grows_advanceLead hs defined hafter now
  · exact (GoesOn.refl w).grows now

theorem grows_acceptStatus (hs : w.Sound) (trail lead : SeqNum) (size shift : Nat)
    (now : Timestamp) : w.Grows (w.acceptStatus trail lead size shift now).1 now := by
  unfold acceptStatus
  split
  · exact w.grows_counters _ now
  · have hsound := hs.announceGroups size shift
    have hgroups : (w.announceGroups size shift).slots = w.slots ∧
        (w.announceGroups size shift).config = w.config := by
      rcases w.announceGroups_cases size shift with he | ⟨-, -, he⟩ <;> rw [he] <;> exact ⟨rfl, rfl⟩
    have announced := w.goesOn_announceGroups size shift
    simp only
    generalize w.announceGroups size shift = v at *
    obtain ⟨hslots, hconfig⟩ := hgroups
    split
    · have placed : v.GoesOn { v.define lead.next with senderTrail := trail } :=
        .of_none (SlotRing.get?_reset v.slots lead.next) rfl
      exact (announced.trans placed).grows now
    next hd =>
      have hlead := grows_followLead hsound (by simpa using hd) lead now
      generalize v.followLead lead now = followed at hlead ⊢
      have hnews := (hlead.goesOn (goesOn_followTrail followed.1 trail)).resolve
      exact (announced.grows now).trans hnews hconfig fun x hx _ => hslots ▸ hx

theorem goesOn_acceptLoss (w : Window) (s : SeqNum) : w.GoesOn (w.acceptLoss s).1 := by
  rcases w.acceptLoss_cases s with he | ⟨_, -, -, -, he⟩ <;> rw [he]
  · exact .refl w
  · exact (w.onlyLoses_loseApdu s).goesOn.resolve

/-! ### Reading and reclaiming -/

theorem queues_takeReady (room length : Nat) (w : Window) :
    (takeReady room length w).1.queues = w.queues := by
  have draws := draws_takeReady room length w
  generalize takeReady room length w = taken at draws ⊢
  induction draws with
  | done | cut => rfl
  | pass _ _ _ _ ih => exact ih
  | deliver _ _ _ _ _ ih => exact ih.trans (queues_commitSlots ..)

/-- What a read takes was held for delivery and is delivered; all other slots stay as they are. -/
theorem get?_takeReady_cases (length room : Nat) (hs : w.Sound) {new : Slot}
    (hnew : (takeReady room length w).1.slots.get? x = some new) :
    ∃ old, w.slots.get? x = some old ∧ (new = old ∨ old.state = .haveData ∧ new = old.commit) := by
  have draws := draws_takeReady room length w
  generalize takeReady room length w = taken at draws hnew
  induction draws with
  | done | cut => exact ⟨new, hnew, .inl rfl⟩
  | pass unread found lost _ ih => exact ih ((Move.passLost unread found lost).sound hs) hnew
  | deliver unread found held whole _ ih =>
    have hmove := Move.deliver _ unread found held whole
    obtain ⟨mid, hmid, hnew⟩ := ih (hmove.sound hs) hnew
    obtain ⟨old, hold, hturns⟩ := hmove.exists_turns hs
      (SlotRing.isSome_get?_iff.1 (by
        rw [get?_deliver] at hmid
        split at hmid
        · obtain ⟨old, hold, -⟩ := Option.map_eq_some_iff.1 hmid
          rw [hold]
          rfl
        · rw [hmid]
          rfl)) hmid
    cases hturns with
    | same => exact ⟨mid, hold, hnew⟩
    | commit _ held =>
      refine ⟨old, hold, .inr ⟨held, ?_⟩⟩
      rcases hnew with rfl | ⟨hd, -⟩
      · rfl
      · cases hd

theorem goesOn_readReady (hs : w.Sound) (count : Nat) : w.GoesOn (w.readReady count).1 := by
  refine GoesOn.resolve ⟨fun hnew => ?_, fun t => ?_⟩
  · obtain ⟨old, hold, hnew⟩ := get?_takeReady_cases _ _ hs.report hnew
    refine ⟨old, hold, ?_⟩
    rcases hnew with rfl | ⟨-, rfl⟩
    · exact .refl _
    · exact ⟨rfl, rfl, rfl, rfl, .inl rfl, rfl⟩
  · rw [queues_takeReady]

theorem goesOn_releaseUpTo (limit : Nat) (w : Window) : w.GoesOn (releaseUpTo limit w).1 := by
  have releases := releases_releaseUpTo limit w
  generalize (releaseUpTo limit w).1 = w' at releases ⊢
  induction releases with
  | done => exact .refl _
  | hold => exact .modify fun slot _ => .retain slot
  | @drop _ w _ before unneeded later ih =>
    refine GoesOn.trans ?_ ih
    unfold dropTrail
    split
    · exact .refl w
    next hpop => exact ⟨fun {_ new} hs => ⟨new, get?_of_popTrail? hpop hs, .refl new⟩, fun _ => .refl _⟩

theorem goesOn_freeDelivered (w : Window) : w.GoesOn w.freeDelivered := by
  unfold freeDelivered
  generalize w.trail.upTo w.commitTrail = numbers
  induction numbers generalizing w with
  | nil => exact .refl w
  | cons s numbers ih =>
    refine GoesOn.trans (v := w.freeSlot s) (.modify fun slot _ => ?_) (ih _)
    split
    · exact .retain slot
    · exact .dropPayload slot

/-! ### All operations -/

/-- The time that an operation is done at, if it matters for it. -/
def Op.time? : Op → Option Timestamp
  | .push _ now | .pushRepair _ _ now | .pushParity _ now | .confirmNak _ _ now
  | .updateStatus _ _ _ _ now | .sweep now | .repair _ _ now => some now
  | _ => none

/-- The operation neither ends timers nor starts them anew. -/
def Op.sparesTimers : Op → Bool
  | .confirmNak .. | .sweep _ => false
  | _ => true

theorem Grows.whileLive {α : Type} (gone : α) {f : Window → Window × α}
    (taken : w.Grows (f w).1 now) : w.Grows (w.whileLive gone f).1 now := by
  unfold Window.whileLive
  split
  · exact (GoesOn.refl w).grows now
  · exact taken

theorem Grows.forSession (tsi : Tsi) {op : Window → Window × Receipt}
    (taken : w.Grows (op w).1 now) : w.Grows (w.forSession tsi op).1 now := by
  unfold Window.forSession
  split
  · exact (GoesOn.refl w).grows now
  · exact taken.whileLive _

/-- An operation that spares the timers only adds slots that begin to wait at its time. -/
theorem grows_step (hs : w.Sound) {op : Op} (part : op.isPart) (spares : op.sparesTimers)
    (time : ∀ t ∈ op.time?, t = now) : w.Grows (w.step op).1 now := by
  cases op with
  | push p t =>
    obtain rfl := time t rfl
    exact (grows_acceptData hs p none t).forSession p.tsi
  | pushRepair p source t =>
    obtain rfl := time t rfl
    exact (grows_acceptData hs p (some source) t).forSession p.tsi
  | pushParity p t =>
    obtain rfl := time t rfl
    exact (grows_acceptParity hs p t).forSession p.tsi
  | updateStatus trail lead size shift t =>
    obtain rfl := time t rfl
    exact Grows.whileLive _ (f := (·.acceptStatus trail lead size shift t))
      (grows_acceptStatus hs trail lead size shift t)
  | markLost s => exact Grows.whileLive _ (f := (·.acceptLoss s)) ((w.goesOn_acceptLoss s).grows now)
  | read count =>
    exact Grows.whileLive _ (f := (·.readReady count)) ((goesOn_readReady hs count).grows now)
  | release =>
    exact Grows.whileLive _ (f := (·.releaseDelivered)) ((goesOn_releaseUpTo _ w).grows now)
  | free =>
    simp only [step, free]
    split
    · exact (GoesOn.refl w).grows now
    · exact w.goesOn_freeDelivered.grows now
  | shutdown =>
    simp only [step, shutdown]
    split
    · exact (GoesOn.refl w).grows now
    · have emptied : w.GoesOn { w with isGone := true, slots := w.slots.reset w.trail, queues := .empty } :=
        .of_none (SlotRing.get?_reset w.slots w.trail) rfl
      exact emptied.grows now
  | repair => cases part
  | confirmNak | sweep => cases spares

end Window

end ReliableMulticast
