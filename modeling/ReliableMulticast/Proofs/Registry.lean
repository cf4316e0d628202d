import ReliableMulticast.Sessions
import ReliableMulticast.Proofs.Presence

/-!
# One live window per session

Handles outlive the session they were made for, and any operation may come through them at any time.
Still a session has one live window at most: the registered one. Three facts about the table carry
this (`Orderly`): its windows are windows with a history, what is not registered was shut down, and
no two registered windows are of the same session. An operation lets each session become another one
with more history or none (`Session.Becomes`), which keeps all three. A window that is gone stays as
it is and answers nothing, so what it was has no influence on the window its session gets next.
-/

namespace ReliableMulticast

namespace Window

variable {w : Window}

/-! ### Windows that are gone -/

/-- What holds of a new window and is kept by the moves of a live one and by shutting it down holds
after any history. -/
theorem reached_induction {motive : Window → Prop} (tsi : Tsi) (config : ValidConfig)
    (new : motive (create tsi config))
    (moved : ∀ {w w' notes}, w.isGone = false → w.Moves notes w' → motive w → motive w')
    (shut : ∀ {w}, w.isGone = false → motive w → motive w.shutdown) (ops : List Op) :
    motive ((create tsi config).run ops) := by
  rw [← run_parts]
  have hparts : ∀ op ∈ parts ops, op.isPart := isPart_of_mem_parts
  generalize parts ops = ops at hparts ⊢
  induction ops using List.reverseRecOn with
  | nil => exact new
  | append_singleton ops op ih =>
    have part := hparts op (List.mem_append_right ops (List.mem_singleton_self op))
    have before := ih fun x hx => hparts x (List.mem_append_left _ hx)
    rw [run_concat]
    cases hlive : ((create tsi config).run ops).isGone with
    | true =>
      rw [step_of_gone hlive part]
      exact before
    | false =>
      by_cases hop : op = .shutdown
      · rw [hop]
        exact shut hlive before
      · have hsound := (sound_run (sound_create tsi config) hlive).1
        obtain ⟨notes, hmoves, -⟩ := step_spec_of_ne hsound hlive part hop
        exact moved hlive hmoves before

/-- A window stays with its session. -/
theorem tsi_run (tsi : Tsi) (config : ValidConfig) (ops : List Op) :
    ((create tsi config).run ops).tsi = tsi := by
  refine reached_induction (motive := (·.tsi = tsi)) tsi config rfl ?_ ?_ ops
  · exact fun _ hmoves h => hmoves.keeps.tsi.trans h
  · intro w live h
    rw [shutdown, live]
    exact h

/-- The window came out of a history of a new one. -/
def IsMade (config : ValidConfig) (w : Window) : Prop :=
  ∃ tsi ops, w = (create tsi config).run ops

theorem IsMade.create (tsi : Tsi) (config : ValidConfig) : IsMade config (create tsi config) :=
  ⟨tsi, [], rfl⟩

theorem IsMade.run {config : ValidConfig} (h : IsMade config w) (ops : List Op) :
    IsMade config (w.run ops) := by
  obtain ⟨tsi, earlier, rfl⟩ := h
  exact ⟨tsi, earlier ++ ops, (run_append ..).symm⟩

theorem IsMade.tsi_run {config : ValidConfig} (h : IsMade config w) (ops : List Op) :
    (w.run ops).tsi = w.tsi := by
  obtain ⟨tsi, earlier, rfl⟩ := h
  rw [← run_append, Window.tsi_run, Window.tsi_run]

/-- A window that is gone is empty, and no timer runs in it. -/
theorem empty_of_gone (tsi : Tsi) (config : ValidConfig) {ops : List Op}
    (gone : ((create tsi config).run ops).isGone) :
    ((create tsi config).run ops).slots.size = 0 ∧
      ((create tsi config).run ops).queues = .empty := by
  refine reached_induction (motive := fun w => w.isGone → w.slots.size = 0 ∧ w.queues = .empty)
    tsi config (fun _ => ⟨rfl, rfl⟩) ?_ ?_ ops gone
  · intro w w' notes live hmoves _ hgone
    rw [hmoves.keeps.isGone, live] at hgone
    cases hgone
  · intro w live _ _
    rw [shutdown, live]
    exact ⟨rfl, rfl⟩

/-- The answer of a window that is gone: nothing is handed out, requested, reclaimed or repaired. -/
def Answer.IsSilent : Answer → Prop
  | .receipt r => r = .of .windowGone ∨ r = .of .unknown
  | .naks requests => requests = []
  | .delivery d => d = .nothing .windowGone
  | .released count => count = 0
  | .repaired result => ∀ count, result = .ok count → count = 0
  | .nothing => True

theorem forSession_of_gone (gone : w.isGone) (tsi : Tsi) (op : Window → Window × Receipt) :
    (w.forSession tsi op).1 = w ∧
      ((w.forSession tsi op).2 = .of .windowGone ∨ (w.forSession tsi op).2 = .of .unknown) := by
  rw [forSession, whileLive, if_pos gone]
  split
  · exact ⟨rfl, .inr rfl⟩
  · exact ⟨rfl, .inl rfl⟩

theorem repairMembers_of_gone (gone : w.isGone) (g : Group) (decode : Decoder) (now : Timestamp)
    (numbers : List SeqNum) :
    (repairMembers g decode now numbers w).1 = w ∧
      ∀ count, (repairMembers g decode now numbers w).2 = .ok count → count = 0 := by
  have failed : ∀ {e : RepairError} {count : Nat}, Except.error e = .ok count → count = 0 := by
    intro e count h
    cases h
  induction numbers with
  | nil =>
    refine ⟨rfl, fun count h => ?_⟩
    cases h
    rfl
  | cons s numbers ih =>
    rw [repairMembers]
    cases decode g s with
    | error => exact ⟨rfl, fun _ => failed⟩
    | ok payload =>
      have hanswer : ∃ r, w.pushRepair ⟨g.tsi, s, none, payload⟩ .parity now = (w, r) ∧
          (r = .of .windowGone ∨ r = .of .unknown) := by
        obtain ⟨hsame, hr⟩ := forSession_of_gone gone g.tsi
          (·.acceptData ⟨g.tsi, s, none, payload⟩ (some .parity) now)
        exact ⟨_, Prod.ext hsame rfl, hr⟩
      obtain ⟨r, hrepair, rfl | rfl⟩ := hanswer
      · simp only [hrepair]
        exact ⟨rfl, fun _ => failed⟩
      · simp only [hrepair]
        refine ⟨ih.1, fun count hcount => ?_⟩
        cases hlater : (repairMembers g decode now numbers w).2 with
        | error e =>
          simp only [Receipt.of, hlater] at hcount
          exact failed hcount
        | ok later =>
          simp only [Receipt.of, hlater] at hcount
          cases hcount
          exact ih.2 later hlater

/-- Whatever is asked of a window that is gone, it stays as it is and its answer is silent. -/
theorem step_gone (gone : w.isGone) (op : Op) : (w.step op).1 = w ∧ (w.step op).2.IsSilent := by
  have hgone : ∀ {α : Type} {a : α} {f : Window → Window × α}, w.whileLive a f = (w, a) :=
    if_pos gone
  cases op with
  | push p now => exact forSession_of_gone gone p.tsi _
  | pushRepair p source now => exact forSession_of_gone gone p.tsi _
  | pushParity p now => exact forSession_of_gone gone p.tsi _
  | repair g decode now => exact repairMembers_of_gone gone g decode now g.missing
  | free => exact ⟨if_pos gone, trivial⟩
  | shutdown => exact ⟨if_pos gone, trivial⟩
  | confirmNak | updateStatus | markLost =>
    simp only [step, confirmNak, updateStatus, markLost, hgone]
    exact ⟨rfl, .inl rfl⟩
  | sweep | read | release =>
    simp only [step, sweep, read, release, hgone]
    exact ⟨rfl, rfl⟩

theorem run_gone (gone : w.isGone) (ops : List Op) : w.run ops = w := by
  induction ops with
  | nil => rfl
  | cons op ops ih =>
    rw [run, List.foldl_cons, (step_gone gone op).1]
    exact ih

end Window

/-! ### The table -/

/-- A session as it may be after an operation on the table: its window went on, and if the session
ended, its window was shut down. -/
structure Session.Becomes (e e' : Session) : Prop where
  history : ∃ ops, e'.window = e.window.run ops
  registered : e'.registered → e.registered
  gone : e.registered → e'.registered = false → e'.window.isGone

theorem Session.Becomes.refl (e : Session) : e.Becomes e where
  history := ⟨[], rfl⟩
  registered := id
  gone := by
    intro h h'
    rw [h] at h'
    cases h'

theorem Session.Becomes.run {e : Session} {w : Window} {ops : List Window.Op}
    (h : w = e.window.run ops) : e.Becomes { e with window := w } where
  history := ⟨ops, h⟩
  registered := id
  gone := by
    intro h h'
    rw [h] at h'
    cases h'

theorem Window.isGone_shutdown (w : Window) : w.shutdown.isGone := by
  unfold Window.shutdown
  split
  · assumption
  · rfl

theorem Session.becomes_retire (e : Session) : e.Becomes e.retire where
  history := ⟨[.shutdown], rfl⟩
  registered := nofun
  gone := fun _ _ => e.window.isGone_shutdown

namespace Sessions

variable {s s' : Sessions} {t : Tsi} {h k : Nat} {e e' : Session} {w : Window}

/-- What holds of the table at any time. -/
structure Orderly (s : Sessions) : Prop where
  made : ∀ {h : Nat} {e : Session}, s.entries[h]? = some e → Window.IsMade s.config e.window
  gone : ∀ {h : Nat} {e : Session}, s.entries[h]? = some e → e.registered = false → e.window.isGone
  unique : ∀ {h k : Nat} {e e' : Session}, s.entries[h]? = some e → s.entries[k]? = some e' →
    e.registered → e'.registered → e.window.tsi = e'.window.tsi → h = k

theorem orderly_empty (config : ValidConfig) : (empty config).Orderly where
  made := nofun
  gone := nofun
  unique := nofun

theorem window?_eq_some_iff : s.window? h = some w ↔ ∃ e, s.entries[h]? = some e ∧ e.window = w :=
  Option.map_eq_some_iff

theorem Orderly.tsi_of_becomes (ho : s.Orderly) (he : s.entries[h]? = some e)
    (hb : e.Becomes e') : e'.window.tsi = e.window.tsi := by
  obtain ⟨ops, hw⟩ := hb.history
  rw [hw, (ho.made he).tsi_run]

/-- A session's handle is where the table has its registered window. -/
theorem Orderly.find?_eq_some_iff (ho : s.Orderly) :
    s.find? t = some h ↔ ∃ e, s.entries[h]? = some e ∧ e.registered ∧ e.window.tsi = t := by
  rw [find?, List.findIdx?_eq_some_iff_getElem]
  constructor
  · rintro ⟨hlt, hfound, -⟩
    simp only [Bool.and_eq_true, decide_eq_true_eq] at hfound
    exact ⟨_, List.getElem?_eq_getElem hlt, hfound⟩
  · rintro ⟨e, he, hregistered, htsi⟩
    obtain ⟨hlt, rfl⟩ := List.getElem?_eq_some_iff.1 he
    refine ⟨hlt, by simp [hregistered, htsi], fun k hk hfound => ?_⟩
    simp only [Bool.and_eq_true, decide_eq_true_eq] at hfound
    have := ho.unique (List.getElem?_eq_getElem (Nat.lt_trans hk hlt)) he hfound.1 hregistered
      (hfound.2.trans htsi.symm)
    omega

theorem find?_eq_none_iff :
    s.find? t = none ↔
      ∀ (h : Nat) (e : Session), s.entries[h]? = some e → e.registered → e.window.tsi ≠ t := by
  rw [find?, List.findIdx?_eq_none_iff]
  simp only [Bool.and_eq_false_iff, decide_eq_false_iff_not, List.mem_iff_getElem?]
  constructor
  · intro hnone h e he hregistered
    exact (hnone e ⟨h, he⟩).resolve_left (by simp [hregistered])
  · rintro hnone e ⟨h, he⟩
    cases hregistered : e.registered with
    | false => exact .inl rfl
    | true => exact .inr (hnone h e he hregistered)

theorem Orderly.get?_eq_some_iff (ho : s.Orderly) :
    s.get? t = some w ↔ ∃ h : Nat, s.entries[h]? = some ⟨w, true⟩ ∧ w.tsi = t := by
  rw [get?, Option.bind_eq_some_iff]
  constructor
  · rintro ⟨h, hfound, hw⟩
    obtain ⟨e, he, hregistered, htsi⟩ := ho.find?_eq_some_iff.1 hfound
    obtain ⟨e', he', rfl⟩ := window?_eq_some_iff.1 hw
    obtain rfl := Option.some.inj (he.symm.trans he')
    refine ⟨h, ?_, htsi⟩
    rw [he, ← hregistered]
  · rintro ⟨h, he, htsi⟩
    exact ⟨h, ho.find?_eq_some_iff.2 ⟨_, he, rfl, htsi⟩, window?_eq_some_iff.2 ⟨_, he, rfl⟩⟩

/-! ### What keeps the table orderly -/

/-- If every session of the table becomes what it is in another table, that one is orderly as
well. -/
theorem Orderly.of_becomes (ho : s.Orderly) (config : s'.config = s.config)
    (each : ∀ {h : Nat} {e' : Session}, s'.entries[h]? = some e' →
      ∃ e, s.entries[h]? = some e ∧ e.Becomes e') :
    s'.Orderly where
  made := by
    intro h e' he'
    obtain ⟨e, he, hb⟩ := each he'
    obtain ⟨ops, hw⟩ := hb.history
    rw [config, hw]
    exact (ho.made he).run ops
  gone := by
    intro h e' he' hends
    obtain ⟨e, he, hb⟩ := each he'
    cases hregistered : e.registered with
    | true => exact hb.gone hregistered hends
    | false =>
      obtain ⟨ops, hw⟩ := hb.history
      have hgone := ho.gone he hregistered
      rw [hw, Window.run_gone hgone]
      exact hgone
  unique := by
    intro h k e₁ e₂ h₁ h₂ r₁ r₂ htsi
    obtain ⟨e, he, hb⟩ := each h₁
    obtain ⟨e', he', hb'⟩ := each h₂
    refine ho.unique he he' (hb.registered r₁) (hb'.registered r₂) ?_
    rw [← ho.tsi_of_becomes he hb, ← ho.tsi_of_becomes he' hb', htsi]

/-- The table with one more registered window. -/
def enrol (s : Sessions) (w : Window) : Sessions :=
  { s with entries := s.entries ++ [⟨w, true⟩] }

theorem getElem?_enrol (s : Sessions) (w : Window) (h : Nat) :
    (s.enrol w).entries[h]? =
      if h = s.entries.length then some ⟨w, true⟩ else s.entries[h]? := by
  rw [enrol]
  split
  next hlast =>
    rw [hlast]
    exact List.getElem?_concat_length
  next hne =>
    rw [List.getElem?_append]
    split
    · rfl
    next hge =>
      rw [List.getElem?_eq_none (by rw [List.length_singleton]; omega),
        List.getElem?_eq_none (by omega)]

/-- A window for a session that has none. -/
theorem Orderly.enrol (ho : s.Orderly) (made : Window.IsMade s.config w)
    (unknown : s.find? w.tsi = none) : (s.enrol w).Orderly := by
  have cases : ∀ {h : Nat} {e : Session}, (s.enrol w).entries[h]? = some e →
      s.entries[h]? = some e ∨ h = s.entries.length ∧ e = ⟨w, true⟩ := by
    intro h e he
    rw [getElem?_enrol] at he
    split at he
    next hlast => exact .inr ⟨hlast, (Option.some.inj he).symm⟩
    next => exact .inl he
  have fresh := find?_eq_none_iff.1 unknown
  constructor
  · intro h e he
    rcases cases he with he | ⟨-, rfl⟩
    · exact ho.made he
    · exact made
  · intro h e he hends
    rcases cases he with he | ⟨-, rfl⟩
    · exact ho.gone he hends
    · cases hends
  · intro h k e e' he he' r r' htsi
    rcases cases he with he | ⟨rfl, rfl⟩ <;> rcases cases he' with he' | ⟨rfl, rfl⟩
    · exact ho.unique he he' r r' htsi
    · exact absurd htsi (fresh h e he r)
    · exact absurd htsi.symm (fresh k e' he' r')
    · rfl

theorem put_length (s : Sessions) (w : Window) : s.put s.entries.length w = s.enrol w :=
  if_neg (Nat.lt_irrefl _)

theorem contact_of_unknown (unknown : s.find? t = none) :
    s.contact t = (s.entries.length, .create t s.config) := by
  rw [contact, unknown]

theorem getOrCreate_of_unknown (unknown : s.find? t = none) :
    s.getOrCreate t = (s.enrol (.create t s.config), s.entries.length) := by
  rw [getOrCreate, contact_of_unknown unknown]
  exact Prod.ext (s.put_length _) rfl

theorem getElem?_put (he : s.entries[h]? = some e) (w : Window) (k : Nat) :
    (s.put h w).entries[k]? = if h = k then some { e with window := w } else s.entries[k]? := by
  rw [put, if_pos (List.getElem?_eq_some_iff.1 he).1, List.getElem?_modify]
  split
  next hk =>
    subst hk
    rw [he]
    rfl
  next => simp

theorem config_put (s : Sessions) (h : Nat) (w : Window) : (s.put h w).config = s.config := by
  unfold put
  split <;> rfl

theorem put_self (he : s.entries[h]? = some e) : s.put h e.window = s := by
  have hsame : (s.put h e.window).entries = s.entries := by
    refine List.ext_getElem? fun k => ?_
    rw [getElem?_put he]
    split
    next hk => rw [← hk, he]
    next => rfl
  have hconfig := s.config_put h e.window
  generalize s.put h e.window = s' at *
  obtain ⟨config, entries⟩ := s
  obtain ⟨config', entries'⟩ := s'
  obtain rfl : config' = config := hconfig
  obtain rfl : entries' = entries := hsame
  rfl

theorem exists_of_find? (hfound : s.find? t = some h) : ∃ e, s.entries[h]? = some e := by
  obtain ⟨hlt, -⟩ := List.findIdx?_eq_some_iff_getElem.1 hfound
  exact ⟨_, List.getElem?_eq_getElem hlt⟩

theorem contact_of_found (hfound : s.find? t = some h) (he : s.entries[h]? = some e) :
    s.contact t = (h, e.window) := by
  rw [contact, hfound]
  simp only [window?, he]
  rfl

theorem getOrCreate_of_found (hfound : s.find? t = some h) : s.getOrCreate t = (s, h) := by
  obtain ⟨e, he⟩ := exists_of_find? hfound
  rw [getOrCreate, contact_of_found hfound he]
  exact Prod.ext (put_self he) rfl

theorem onHandle_of_found {α : Type} (he : s.entries[h]? = some e) (op : Window → Window × α) :
    s.onHandle h op = (s.put h (op e.window).1, some (op e.window).2) := by
  rw [onHandle, window?, he]
  rfl

theorem Orderly.put (ho : s.Orderly) (he : s.entries[h]? = some e) (ops : List Window.Op) :
    (s.put h (e.window.run ops)).Orderly := by
  refine ho.of_becomes (config_put ..) fun {k e'} he' => ?_
  rw [getElem?_put he] at he'
  split at he'
  next hk =>
    obtain rfl := Option.some.inj he'
    exact ⟨e, hk ▸ he, .run rfl⟩
  next => exact ⟨e', he', .refl e'⟩

theorem getElem?_remove (hfound : s.find? t = some h) (k : Nat) :
    (s.remove t).1.entries[k]? =
      if h = k then (s.entries[k]?).map Session.retire else s.entries[k]? := by
  rw [remove, hfound]
  simp only [List.getElem?_modify]
  split <;> simp

theorem remove_of_unknown (unknown : s.find? t = none) : s.remove t = (s, none) := by
  rw [remove, unknown]

theorem Orderly.remove (ho : s.Orderly) (t : Tsi) : (s.remove t).1.Orderly := by
  cases hfound : s.find? t with
  | none =>
    rw [remove_of_unknown hfound]
    exact ho
  | some h =>
    refine ho.of_becomes (by rw [Sessions.remove, hfound]) fun {k e'} he' => ?_
    rw [getElem?_remove hfound] at he'
    split at he'
    next =>
      obtain ⟨e, he, rfl⟩ := Option.map_eq_some_iff.1 he'
      exact ⟨e, he, e.becomes_retire⟩
    next => exact ⟨e', he', .refl e'⟩

/-- After a session was removed it has no window. -/
theorem Orderly.find?_remove (ho : s.Orderly) (t : Tsi) : (s.remove t).1.find? t = none := by
  cases hfound : s.find? t with
  | none => rw [remove_of_unknown hfound, hfound]
  | some h =>
    refine find?_eq_none_iff.2 fun k e he hregistered htsi => ?_
    rw [getElem?_remove hfound] at he
    split at he
    next =>
      obtain ⟨e, -, rfl⟩ := Option.map_eq_some_iff.1 he
      cases hregistered
    next hne =>
      have := ho.find?_eq_some_iff.2 ⟨e, he, hregistered, htsi⟩
      rw [hfound] at this
      exact hne (Option.some.inj this)

theorem getElem?_shutdownAll (s : Sessions) (k : Nat) :
    s.shutdownAll.entries[k]? =
      (s.entries[k]?).map fun e => if e.registered then e.retire else e :=
  List.getElem?_map

theorem Orderly.shutdownAll (ho : s.Orderly) : s.shutdownAll.Orderly := by
  refine ho.of_becomes rfl fun {k e'} he' => ?_
  rw [getElem?_shutdownAll] at he'
  obtain ⟨e, he, rfl⟩ := Option.map_eq_some_iff.1 he'
  refine ⟨e, he, ?_⟩
  split
  · exact e.becomes_retire
  · exact .refl e

theorem find?_shutdownAll (s : Sessions) (t : Tsi) : s.shutdownAll.find? t = none := by
  refine find?_eq_none_iff.2 fun k e he hregistered _ => ?_
  rw [getElem?_shutdownAll] at he
  obtain ⟨e, -, rfl⟩ := Option.map_eq_some_iff.1 he
  split at hregistered
  · cases hregistered
  next hnot => exact hnot hregistered

/-! ### Histories of the table -/

/-- What an operation on the table does to the window of a handle whose session is `t`. -/
def Op.through (h : Nat) (t : Tsi) : Op → List Window.Op
  | .window k op => if k = h then [op] else []
  | .remove t' => if t' = t then [.shutdown] else []
  | .shutdownAll => [.shutdown]
  | .getOrCreate _ => []

/-- The table stays orderly while its windows do something, which may depend on their handles and
sessions. -/
structure Does (s s' : Sessions) (done : Nat → Tsi → List Window.Op) : Prop where
  orderly : s'.Orderly
  config : s'.config = s.config
  window : ∀ {h : Nat} {e : Session}, s.entries[h]? = some e →
    s'.window? h = some (e.window.run (done h e.window.tsi))

theorem window?_of_entry (he : s.entries[h]? = some e) : s.window? h = some e.window :=
  window?_eq_some_iff.2 ⟨e, he, rfl⟩

theorem Orderly.does_getOrCreate (ho : s.Orderly) (t : Tsi) :
    s.Does (s.getOrCreate t).1 fun _ _ => [] := by
  cases hfound : s.find? t with
  | some k =>
    rw [getOrCreate_of_found hfound]
    exact ⟨ho, rfl, window?_of_entry⟩
  | none =>
    rw [getOrCreate_of_unknown hfound]
    refine ⟨ho.enrol (.create t s.config) hfound, rfl, fun {h e} he => window?_of_entry ?_⟩
    rwa [getElem?_enrol, if_neg (Nat.ne_of_lt (List.getElem?_eq_some_iff.1 he).1)]

/-- Only the registered window of a session is shut down with it, but another one was before. -/
theorem Orderly.does_remove (ho : s.Orderly) (t : Tsi) :
    s.Does (s.remove t).1 fun _ t' => if t = t' then [.shutdown] else [] := by
  have other : ∀ {h : Nat} {e : Session}, s.entries[h]? = some e → s.find? t ≠ some h →
      e.window = e.window.run (if t = e.window.tsi then [.shutdown] else []) := by
    intro h e he hnot
    split
    next htsi =>
      have hgone : e.window.isGone := by
        cases hregistered : e.registered with
        | false => exact ho.gone he hregistered
        | true => exact absurd (ho.find?_eq_some_iff.2 ⟨e, he, hregistered, htsi.symm⟩) hnot
      exact (Window.run_gone hgone _).symm
    next => rfl
  cases hfound : s.find? t with
  | none =>
    rw [remove_of_unknown hfound]
    refine ⟨ho, rfl, fun {h e} he => ?_⟩
    rw [window?_of_entry he, ← other he (by rw [hfound]; nofun)]
  | some k =>
    refine ⟨ho.remove t, by rw [Sessions.remove, hfound], fun {h e} he => ?_⟩
    rw [window?, getElem?_remove hfound]
    split
    next hk =>
      subst hk
      obtain ⟨e', he', -, htsi⟩ := ho.find?_eq_some_iff.1 hfound
      obtain rfl := Option.some.inj (he.symm.trans he')
      rw [if_pos htsi.symm, he]
      rfl
    next hk =>
      rw [← other he (by rw [hfound]; exact fun heq => hk (Option.some.inj heq)), he]
      rfl

theorem Orderly.does_shutdownAll (ho : s.Orderly) :
    s.Does s.shutdownAll fun _ _ => [.shutdown] := by
  refine ⟨ho.shutdownAll, rfl, fun {h e} he => ?_⟩
  rw [window?, getElem?_shutdownAll, he]
  cases hregistered : e.registered with
  | true => simp [hregistered, Session.retire, Window.run, Window.step]
  | false =>
    rw [Window.run_gone (ho.gone he hregistered)]
    simp [hregistered]

theorem Orderly.does_onHandle (ho : s.Orderly) (k : Nat) (op : Window.Op) :
    s.Does (s.onHandle k (·.step op)).1 fun h _ => if k = h then [op] else [] := by
  cases hk : s.entries[k]? with
  | none =>
    have hnone : s.onHandle k (·.step op) = (s, none) := by rw [onHandle, window?, hk]; rfl
    rw [hnone]
    refine ⟨ho, rfl, fun {h e} he => ?_⟩
    have hne : k ≠ h := by
      rintro rfl
      rw [he] at hk
      cases hk
    rw [if_neg hne, window?_of_entry he]
    rfl
  | some e' =>
    rw [onHandle_of_found hk]
    refine ⟨ho.put hk [op], config_put .., fun {h e} he => ?_⟩
    rw [window?, getElem?_put hk]
    split
    next heq =>
      subst heq
      obtain rfl := Option.some.inj (hk.symm.trans he)
      rfl
    next =>
      rw [he]
      rfl

theorem Orderly.does_step (ho : s.Orderly) (op : Op) : s.Does (s.step op).1 op.through := by
  cases op with
  | getOrCreate t => exact ho.does_getOrCreate t
  | remove t => exact ho.does_remove t
  | shutdownAll => exact ho.does_shutdownAll
  | window k op => exact ho.does_onHandle k op

/-- A history keeps the table orderly, and each window does what is done through its handle. -/
theorem Orderly.does_run (ho : s.Orderly) (ops : List Op) :
    s.Does (s.run ops) fun h t => ops.flatMap (·.through h t) := by
  induction ops using List.reverseRecOn with
  | nil => exact ⟨ho, rfl, window?_of_entry⟩
  | append_singleton ops op ih =>
    have hrun : s.run (ops ++ [op]) = ((s.run ops).step op).1 := List.foldl_append
    have hstep := ih.orderly.does_step op
    rw [hrun]
    refine ⟨hstep.orderly, hstep.config.trans ih.config, fun {h e} he => ?_⟩
    obtain ⟨e', he', hw⟩ := window?_eq_some_iff.1 (ih.window he)
    rw [hstep.window he', hw, (ho.made he).tsi_run, ← Window.run_append, List.flatMap_append]
    simp

/-- The answer of an operation through a handle is the one of its window. -/
theorem step_window (hw : s.window? h = some w) (op : Window.Op) :
    (s.step (.window h op)).2 = .window (some (w.step op).2) := by
  rw [step, onHandle, hw]
  rfl

/-- A live window is the registered one of its session. -/
theorem Orderly.find?_of_live (ho : s.Orderly) (hw : s.window? h = some w)
    (live : w.isGone = false) : s.find? w.tsi = some h := by
  obtain ⟨e, he, rfl⟩ := window?_eq_some_iff.1 hw
  have hregistered : e.registered := by
    by_contra hnot
    rw [ho.gone he (by simpa using hnot)] at live
    cases live
  exact ho.find?_eq_some_iff.2 ⟨e, he, hregistered, rfl⟩

/-- A window of the table that is gone is empty. -/
theorem Orderly.empty_of_gone (ho : s.Orderly) (hw : s.window? h = some w) (gone : w.isGone) :
    w.slots.size = 0 ∧ w.queues = .empty := by
  obtain ⟨e, he, rfl⟩ := window?_eq_some_iff.1 hw
  obtain ⟨tsi, earlier, hmade⟩ := ho.made he
  rw [hmade] at gone ⊢
  exact Window.empty_of_gone tsi _ gone

/-- Whatever happens, a window that is gone stays as it is and answers nothing. -/
theorem Orderly.run_of_gone (ho : s.Orderly) (hw : s.window? h = some w) (gone : w.isGone)
    (more : List Op) :
    (s.run more).window? h = some w ∧ ∀ op, ∃ answer : Window.Answer,
      ((s.run more).step (.window h op)).2 = .window (some answer) ∧ answer.IsSilent := by
  obtain ⟨e, he, rfl⟩ := window?_eq_some_iff.1 hw
  have hlater := (ho.does_run more).window he
  rw [Window.run_gone gone] at hlater
  exact ⟨hlater, fun op => ⟨_, step_window hlater op, (Window.step_gone gone op).2⟩⟩

/-- The window of a session that is met anew is what operations through its new handle make of
it. -/
theorem Orderly.run_of_unknown (ho : s.Orderly) (unknown : s.find? t = none) (more : List Op) :
    let calls := more.flatMap (·.through s.entries.length t)
    let s' := (s.getOrCreate t).1.run more
    s'.window? s.entries.length = some ((Window.create t s.config).run calls) ∧
      ∀ op, (s'.step (.window s.entries.length op)).2 =
        .window (some (((Window.create t s.config).run calls).step op).2) := by
  rw [getOrCreate_of_unknown unknown]
  have hnew : (s.enrol (.create t s.config)).entries[s.entries.length]? =
      some ⟨.create t s.config, true⟩ := by
    rw [getElem?_enrol, if_pos rfl]
  have hlater := ((ho.enrol (.create t s.config) unknown).does_run more).window hnew
  exact ⟨hlater, step_window hlater⟩

/-- After any history, a live window is the registered one of its session, so a session has one live
window at most. A window that is gone is empty, and whatever happens later, it stays as it is and
answers nothing. A session that was removed gets a new window with a handle that was never given
before, and from then on that window is what operations through its handle alone make of it. -/
theorem live_is_registered (config : ValidConfig) (ops : List Op) :
    let s := (empty config).run ops
    (∀ h w, s.window? h = some w → w.isGone = false → s.find? w.tsi = some h) ∧
    (∀ h w, s.window? h = some w → w.isGone →
      w.slots.size = 0 ∧ w.queues = .empty ∧ w.hasPending = false ∧ w.nextExpiry = none ∧
      ∀ more, (s.run more).window? h = some w ∧ ∀ op, ∃ answer : Window.Answer,
        ((s.run more).step (.window h op)).2 = .window (some answer) ∧ answer.IsSilent) ∧
    ∀ t, (s.remove t).1.find? t = none ∧ s.shutdownAll.find? t = none ∧
      (s.find? t = none → ∃ h, (s.getOrCreate t).2 = h ∧ s.window? h = none ∧
        ∀ more, ((s.getOrCreate t).1.run more).window? h =
            some ((Window.create t config).run (more.flatMap (·.through h t))) ∧
          ∀ op, (((s.getOrCreate t).1.run more).step (.window h op)).2 = .window (some
            (((Window.create t config).run (more.flatMap (·.through h t))).step op).2)) := by
  intro s
  have hdoes := (orderly_empty config).does_run ops
  have ho : s.Orderly := hdoes.orderly
  have hconfig : s.config = config := hdoes.config
  refine ⟨fun h w hw live => ho.find?_of_live hw live, fun h w hw gone => ?_, fun t =>
    ⟨ho.find?_remove t, find?_shutdownAll s t, fun unknown => ⟨s.entries.length, ?_⟩⟩⟩
  · obtain ⟨hslots, hqueues⟩ := ho.empty_of_gone hw gone
    exact ⟨hslots, hqueues, by simp [Window.hasPending, gone], if_pos gone,
      ho.run_of_gone hw gone⟩
  · refine ⟨by rw [getOrCreate_of_unknown unknown], ?_, fun more => ?_⟩
    · rw [window?, List.getElem?_eq_none (Nat.le_refl _)]
      rfl
    · rw [← hconfig]
      exact ho.run_of_unknown unknown more

/-- A session that got a packet, was removed, and was met again; its old window gets another
packet. -/
def removedHistory : List Op :=
  [.getOrCreate Window.smallTsi, .window 0 (Window.smallPush 5 none 1), .remove Window.smallTsi,
    .getOrCreate Window.smallTsi, .window 0 (Window.smallPush 6 none 2),
    .window 1 (Window.smallPush 9 none 3)]

theorem live_is_registered_small :
    let s := (empty Window.smallConfig).run removedHistory
    (∃ w, s.window? 1 = some w ∧ w.isGone = false ∧ w.lead = 9 ∧ s.find? w.tsi = some 1) ∧
      ∃ w, s.window? 0 = some w ∧ w.isGone ∧ w.slots.size = 0 ∧
        ∀ more, (s.run more).window? 0 = some w := by
  intro s
  obtain ⟨live, gone, -⟩ := live_is_registered Window.smallConfig removedHistory
  obtain ⟨w, hnew, hw⟩ := (Option.any_eq_true (fun w => !w.isGone && w.lead = 9) (s.window? 1)).1
    (by decide +kernel)
  obtain ⟨old, hold, hgone⟩ := (Option.any_eq_true (·.isGone) (s.window? 0)).1 (by decide +kernel)
  simp only [Bool.and_eq_true, Bool.not_eq_true', decide_eq_true_eq] at hw
  obtain ⟨empty, -, -, -, stays⟩ := gone 0 old hold hgone
  exact ⟨⟨w, hnew, hw.1, hw.2, live 1 w hnew hw.1⟩, old, hold, hgone, empty,
    fun more => (stays more).1⟩

end Sessions

end ReliableMulticast
