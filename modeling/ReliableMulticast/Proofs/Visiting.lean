import Mathlib.Logic.Function.Basic
import ReliableMulticast.Proofs.Service

/-!
# Visiting sessions

What the operations on the table look like to a session: each leaves the table orderly and gives
every session its window, or none (`Shows`). An operation on one session is an update at that
session. A visit of all registered windows may take them in any order (`Orderly.shows_onEach`).
-/

namespace ReliableMulticast

/-- The events of one session. -/
def eventsOf (t : Tsi) (events : List Event) : List Event := events.filter (·.tsi = t)

theorem eventsOf_append (t : Tsi) (events more : List Event) :
    eventsOf t (events ++ more) = eventsOf t events ++ eventsOf t more :=
  List.filter_append ..

theorem eventsOf_self {t : Tsi} {events : List Event} (own : ∀ event ∈ events, event.tsi = t) :
    eventsOf t events = events :=
  List.filter_eq_self.2 fun event hevent => decide_eq_true (own event hevent)

theorem eventsOf_other {t t' : Tsi} {events : List Event}
    (own : ∀ event ∈ events, event.tsi = t') (other : t ≠ t') : eventsOf t events = [] := by
  refine List.filter_eq_nil_iff.2 fun event hevent heq => other ?_
  rw [← own event hevent]
  exact (of_decide_eq_true heq).symm

namespace Sessions

variable {s s' : Sessions} {t t' : Tsi} {h k : Nat} {e : Session} {w : Window}

/-! ### The registered windows -/

/-- The table turned into an orderly one whose sessions have these windows. -/
structure Shows (s s' : Sessions) (windows : Tsi → Option Window) : Prop where
  orderly : s'.Orderly
  config : s'.config = s.config
  get? : ∀ t, s'.get? t = windows t

theorem Orderly.get?_eq_none_iff (ho : s.Orderly) : s.get? t = none ↔ s.find? t = none := by
  rw [get?, Option.bind_eq_none_iff]
  constructor
  · intro hnone
    by_contra hsome
    obtain ⟨h, hfound⟩ := Option.ne_none_iff_exists'.1 hsome
    obtain ⟨e, he, -⟩ := ho.find?_eq_some_iff.1 hfound
    have := hnone h hfound
    rw [window?_of_entry he] at this
    cases this
  · intro hnone h hfound
    rw [hnone] at hfound
    cases hfound

theorem Orderly.get?_of_entry (ho : s.Orderly) (he : s.entries[h]? = some e)
    (registered : e.registered) : s.get? e.window.tsi = some e.window := by
  refine ho.get?_eq_some_iff.2 ⟨h, ?_, rfl⟩
  rw [he, ← registered]

theorem Orderly.made_of_get? (ho : s.Orderly) (hw : s.get? t = some w) :
    Window.IsMade s.config w ∧ w.tsi = t := by
  obtain ⟨h, he, htsi⟩ := ho.get?_eq_some_iff.1 hw
  exact ⟨ho.made he, htsi⟩

/-- The window of a session, or the one that it would get. -/
theorem Orderly.made_getD (ho : s.Orderly) (t : Tsi) :
    Window.IsMade s.config ((s.get? t).getD (.create t s.config)) ∧
      ((s.get? t).getD (.create t s.config)).tsi = t := by
  cases hw : s.get? t with
  | some w => exact ho.made_of_get? hw
  | none => exact ⟨.create t s.config, rfl⟩

theorem Orderly.find?_put (ho : s.Orderly) (he : s.entries[h]? = some e) (ops : List Window.Op)
    (t : Tsi) : (s.put h (e.window.run ops)).find? t = s.find? t := by
  have htsi := (ho.made he).tsi_run ops
  refine Option.ext fun k => ?_
  rw [(ho.put he ops).find?_eq_some_iff, ho.find?_eq_some_iff, getElem?_put he]
  split
  next heq =>
    subst heq
    simp [he, htsi]
  next => rfl

theorem Orderly.shows_put (ho : s.Orderly) (he : s.entries[h]? = some e)
    (registered : e.registered) (ops : List Window.Op) :
    s.Shows (s.put h (e.window.run ops))
      (Function.update s.get? e.window.tsi (some (e.window.run ops))) where
  orderly := ho.put he ops
  config := config_put ..
  get? := by
    intro t
    by_cases ht : t = e.window.tsi
    · subst ht
      rw [Function.update_self, ← (ho.made he).tsi_run ops]
      exact (ho.put he ops).get?_of_entry (e := { e with window := e.window.run ops })
        (by rw [getElem?_put he, if_pos rfl]) registered
    · rw [Function.update_of_ne ht, get?, ho.find?_put he, get?]
      cases hfound : s.find? t with
      | none => rfl
      | some k =>
        obtain ⟨e', he', -, htsi⟩ := ho.find?_eq_some_iff.1 hfound
        have hne : h ≠ k := by
          rintro rfl
          rw [he] at he'
          cases he'
          exact ht htsi.symm
        change (s.put h _).window? k = s.window? k
        rw [window?, getElem?_put he, if_neg hne, window?]

theorem Orderly.shows_enrol (ho : s.Orderly) (made : Window.IsMade s.config w)
    (unknown : s.find? w.tsi = none) :
    s.Shows (s.enrol w) (Function.update s.get? w.tsi (some w)) where
  orderly := ho.enrol made unknown
  config := rfl
  get? := by
    have hnew := ho.enrol made unknown
    intro t
    by_cases ht : t = w.tsi
    · subst ht
      rw [Function.update_self]
      exact hnew.get?_of_entry (e := ⟨w, true⟩) (by rw [getElem?_enrol, if_pos rfl]) rfl
    · rw [Function.update_of_ne ht]
      refine Option.ext fun w => ?_
      rw [hnew.get?_eq_some_iff, ho.get?_eq_some_iff]
      refine exists_congr fun k => and_congr_left fun htsi => ?_
      rw [getElem?_enrol]
      split
      next hk =>
        rw [hk, List.getElem?_eq_none (Nat.le_refl _)]
        refine iff_of_false ?_ nofun
        rintro ⟨⟩
        exact ht htsi.symm
      next => rfl

theorem Orderly.shows_remove (ho : s.Orderly) (t' : Tsi) :
    s.Shows (s.remove t').1 (Function.update s.get? t' none) where
  orderly := ho.remove t'
  config := (ho.does_remove t').config
  get? := by
    intro t
    have hnew := ho.remove t'
    by_cases ht : t = t'
    · subst ht
      rw [Function.update_self]
      exact hnew.get?_eq_none_iff.2 (ho.find?_remove t)
    · rw [Function.update_of_ne ht]
      cases hfound : s.find? t' with
      | none => rw [remove_of_unknown hfound]
      | some h =>
        refine Option.ext fun w => ?_
        rw [hnew.get?_eq_some_iff, ho.get?_eq_some_iff]
        refine exists_congr fun k => and_congr_left fun htsi => ?_
        rw [getElem?_remove hfound]
        split
        next hk =>
          subst hk
          obtain ⟨e, he, -, he'⟩ := ho.find?_eq_some_iff.1 hfound
          rw [he]
          refine iff_of_false ?_ ?_
          · rintro ⟨⟩
          · rintro ⟨⟩
            exact ht (htsi.symm.trans he')
        next => rfl

theorem Orderly.shows_shutdownAll (ho : s.Orderly) : s.Shows s.shutdownAll fun _ => none where
  orderly := ho.shutdownAll
  config := rfl
  get? := fun t => ho.shutdownAll.get?_eq_none_iff.2 (s.find?_shutdownAll t)

/-- An operation on a session's window, which is made if there is none. -/
theorem Orderly.shows_onSession {α : Type} (ho : s.Orderly) (t : Tsi) {op : Window → Window × α}
    (history : ∀ w, Window.IsMade s.config w → ∃ ops, (op w).1 = w.run ops) :
    s.Shows (s.onSession t op).1
        (Function.update s.get? t (some (op ((s.get? t).getD (.create t s.config))).1)) ∧
      (s.onSession t op).2 = (op ((s.get? t).getD (.create t s.config))).2 := by
  cases hfound : s.find? t with
  | some h =>
    obtain ⟨e, he, registered, rfl⟩ := ho.find?_eq_some_iff.1 hfound
    obtain ⟨ops, hw⟩ := history e.window (ho.made he)
    have hput := ho.shows_put he registered ops
    rw [← hw] at hput
    rw [onSession, contact_of_found hfound he, ho.get?_of_entry he registered]
    exact ⟨hput, rfl⟩
  | none =>
    obtain ⟨ops, hw⟩ := history (.create t s.config) (.create t s.config)
    have htsi : ((Window.create t s.config).run ops).tsi = t := Window.tsi_run ..
    have henrol := ho.shows_enrol ((Window.IsMade.create t s.config).run ops)
      (by rw [htsi]; exact hfound)
    rw [htsi, ← hw] at henrol
    rw [onSession, contact_of_unknown hfound, ho.get?_eq_none_iff.2 hfound]
    simp only [put_length]
    exact ⟨henrol, rfl⟩

/-- An operation on a session's window, if it has one. -/
theorem Orderly.shows_onRegistered {α : Type} (ho : s.Orderly) (t : Tsi)
    {op : Window → Window × α}
    (history : ∀ w, Window.IsMade s.config w → ∃ ops, (op w).1 = w.run ops) :
    s.Shows (s.onRegistered t op).1
        (Function.update s.get? t ((s.get? t).map fun w => (op w).1)) ∧
      (s.onRegistered t op).2 = (s.get? t).map fun w => (op w).2 := by
  cases hfound : s.find? t with
  | some h =>
    obtain ⟨e, he, registered, rfl⟩ := ho.find?_eq_some_iff.1 hfound
    obtain ⟨ops, hw⟩ := history e.window (ho.made he)
    have hput := ho.shows_put he registered ops
    rw [← hw] at hput
    rw [onRegistered, hfound, ho.get?_of_entry he registered]
    simp only [onHandle_of_found he]
    exact ⟨hput, rfl⟩
  | none =>
    rw [onRegistered, hfound, ho.get?_eq_none_iff.2 hfound]
    refine ⟨⟨ho, rfl, fun t' => ?_⟩, rfl⟩
    rw [Option.map_none, ← ho.get?_eq_none_iff.2 hfound, Function.update_eq_self]

/-! ### Visiting all windows in any order -/

/-- The handles of the registered windows. -/
def handles (s : Sessions) : List Nat := s.registered.map Prod.fst

/-- Does an operation on the windows of the given handles, one after the other. -/
def onEach {α : Type} (op : Window → Window × List α) : List Nat → Sessions → Sessions × List α
  | [], s => (s, [])
  | h :: rest, s =>
    let (s, answers) := s.onHandle h op
    let (s, later) := onEach op rest s
    (s, answers.getD [] ++ later)

theorem handles_eq (s : Sessions) :
    s.handles = (s.entries.zipIdx.filter (·.1.registered)).map Prod.snd := by
  rw [handles, registered, List.map_map]
  rfl

theorem mem_handles : h ∈ s.handles ↔ ∃ e, s.entries[h]? = some e ∧ e.registered := by
  rw [handles_eq, List.mem_map]
  constructor
  · rintro ⟨⟨e, k⟩, hmem, rfl⟩
    obtain ⟨hmem, hregistered⟩ := List.mem_filter.1 hmem
    exact ⟨e, List.mem_zipIdx_iff_getElem?.1 hmem, hregistered⟩
  · rintro ⟨e, he, hregistered⟩
    exact ⟨(e, h), List.mem_filter.2 ⟨List.mem_zipIdx_iff_getElem?.2 he, hregistered⟩, rfl⟩

theorem nodup_handles (s : Sessions) : s.handles.Nodup := by
  rw [handles_eq]
  refine List.Nodup.sublist (List.Sublist.map _ List.filter_sublist) ?_
  rw [List.zipIdx_map_snd]
  exact List.nodup_range' 1

theorem put_append (config : ValidConfig) (before rest : List Session) (e : Session) (w : Window) :
    (⟨config, before ++ e :: rest⟩ : Sessions).put before.length w =
      ⟨config, before ++ { e with window := w } :: rest⟩ := by
  rw [put, if_pos (by simp), List.modify_eq_take_cons_drop (by simp)]
  simp

/-- Behind the windows that were visited, the others keep their handles. -/
theorem onEach_visit {α : Type} (config : ValidConfig) (op : Window → Window × List α)
    (before rest : List Session) :
    onEach op (((rest.zipIdx before.length).filter (·.1.registered)).map Prod.snd)
        ⟨config, before ++ rest⟩ =
      (⟨config, before ++ (visit op rest).1⟩, (visit op rest).2) := by
  induction rest generalizing before with
  | nil => rfl
  | cons e rest ih =>
    rw [List.zipIdx_cons, visit]
    cases registered : e.registered with
    | true =>
      have he : (before ++ e :: rest)[before.length]? = some e := by simp
      have later := ih (before ++ [⟨(op e.window).1, true⟩])
      simp only [List.length_append, List.length_singleton, List.append_assoc,
        List.singleton_append] at later
      rw [List.filter_cons, if_pos registered, List.map_cons, onEach,
        onHandle_of_found (s := ⟨config, before ++ e :: rest⟩) he]
      simp only [put_append, registered, later]
      rfl
    | false =>
      have later := ih (before ++ [e])
      simp only [List.length_append, List.length_singleton, List.append_assoc,
        List.singleton_append] at later
      rw [List.filter_cons, if_neg (by simp [registered]), later]
      rfl

/-- Visiting all registered windows is visiting them by handle. -/
theorem onAll_eq {α : Type} (s : Sessions) (op : Window → Window × List α) :
    s.onAll op = onEach op s.handles s := by
  rw [handles_eq]
  exact (onEach_visit s.config op [] s.entries).symm

/-- An operation that does nothing to a window but calls, and whose events are the window's own. -/
structure Minds (config : ValidConfig) (op : Window → Window × List Event) : Prop where
  history : ∀ w, Window.IsMade config w → ∃ ops, (op w).1 = w.run ops
  own : ∀ w, Window.IsMade config w → ∀ event ∈ (op w).2, event.tsi = w.tsi

/-- After a visit of these handles, their sessions have the windows that the operation made of them
and caused its events; the others are as they were. -/
structure Visits (op : Window → Window × List Event) (order : List Nat) (s s' : Sessions)
    (events : List Event) : Prop where
  orderly : s'.Orderly
  config : s'.config = s.config
  visited : ∀ t, ∀ h ∈ order, s.find? t = some h →
    s'.get? t = (s.get? t).map (fun w => (op w).1) ∧
      eventsOf t events = ((s.get? t).map fun w => (op w).2).getD []
  others : ∀ t, (∀ h ∈ order, s.find? t ≠ some h) →
    s'.get? t = s.get? t ∧ eventsOf t events = []

/-- A visit of one more handle, before the others. -/
theorem Visits.cons {op : Window → Window × List Event} {order : List Nat} {s' : Sessions}
    {events : List Event} (ho : s.Orderly) (minds : Minds s.config op)
    (he : s.entries[h]? = some e) (registered : e.registered) (absent : h ∉ order)
    (later : Visits op order (s.put h (op e.window).1) s' events) :
    Visits op (h :: order) s s' ((op e.window).2 ++ events) := by
  obtain ⟨ops, hw⟩ := minds.history e.window (ho.made he)
  have own := minds.own e.window (ho.made he)
  have hshows := ho.shows_put he registered ops
  have hfind := ho.find?_put he ops
  rw [← hw] at hshows hfind
  have hself := ho.find?_eq_some_iff.2 ⟨e, he, registered, rfl⟩
  have hother : ∀ {t}, t ≠ e.window.tsi → (s.put h (op e.window).1).get? t = s.get? t := by
    intro t ht
    rw [hshows.get?, Function.update_of_ne ht]
  refine ⟨later.orderly, later.config.trans hshows.config, fun t k hk hfound => ?_,
    fun t hnone => ?_⟩
  · rw [eventsOf_append]
    by_cases ht : t = e.window.tsi
    · subst ht
      have alone : ∀ k ∈ order, (s.put h (op e.window).1).find? e.window.tsi ≠ some k := by
        intro k hk hfound
        rw [hfind, hself] at hfound
        exact absent (Option.some.inj hfound ▸ hk)
      obtain ⟨hget, hnone⟩ := later.others _ alone
      rw [hget, hnone, hshows.get?, Function.update_self, eventsOf_self own, List.append_nil,
        ho.get?_of_entry he registered]
      exact ⟨rfl, rfl⟩
    · have hmem : k ∈ order := by
        refine (List.mem_cons.1 hk).resolve_left ?_
        rintro rfl
        obtain ⟨e', he', -, rfl⟩ := ho.find?_eq_some_iff.1 hfound
        cases he.symm.trans he'
        exact ht rfl
      rw [eventsOf_other own ht, List.nil_append, ← hother ht]
      exact later.visited t k hmem ((hfind t).trans hfound)
  · have ht : t ≠ e.window.tsi := by
      rintro rfl
      exact hnone h (List.mem_cons_self ..) hself
    rw [eventsOf_append, eventsOf_other own ht, List.nil_append, ← hother ht]
    exact later.others t fun k hk => hfind t ▸ hnone k (List.mem_cons_of_mem h hk)

theorem mem_handles_put (he : s.entries[h]? = some e) {k : Nat} (hk : k ∈ s.handles) (hne : k ≠ h)
    (w : Window) : k ∈ (s.put h w).handles := by
  obtain ⟨e', he', registered⟩ := mem_handles.1 hk
  exact mem_handles.2 ⟨e', by rw [getElem?_put he, if_neg (Ne.symm hne), he'], registered⟩

theorem Orderly.visits_onEach {op : Window → Window × List Event} (ho : s.Orderly)
    (minds : Minds s.config op) {order : List Nat} (once : order.Nodup)
    (registered : ∀ h ∈ order, h ∈ s.handles) :
    Visits op order s (onEach op order s).1 (onEach op order s).2 := by
  induction order generalizing s with
  | nil => exact ⟨ho, rfl, fun t h hh => absurd hh List.not_mem_nil, fun _ _ => ⟨rfl, rfl⟩⟩
  | cons h order ih =>
    obtain ⟨e, he, hregistered⟩ := mem_handles.1 (registered h (List.mem_cons_self ..))
    obtain ⟨absent, once⟩ := List.nodup_cons.1 once
    have hshows := ho.shows_put he hregistered
    obtain ⟨ops, hw⟩ := minds.history e.window (ho.made he)
    have later := ih (s := s.put h (op e.window).1) (hw ▸ (hshows ops).orderly)
      (hw ▸ (hshows ops).config ▸ minds) once fun k hk => mem_handles_put he
        (registered k (List.mem_cons_of_mem h hk)) (fun heq => absent (heq ▸ hk)) _
    rw [onEach, onHandle_of_found he]
    exact later.cons ho minds he hregistered absent

/-- What a visit of all registered windows does for a session, in whatever order it is made. -/
theorem Orderly.shows_onEach {op : Window → Window × List Event} (ho : s.Orderly)
    (minds : Minds s.config op) {order : List Nat} (all : order.Perm s.handles) :
    s.Shows (onEach op order s).1 (fun t => (s.get? t).map fun w => (op w).1) ∧
      ∀ t, eventsOf t (onEach op order s).2 = ((s.get? t).map fun w => (op w).2).getD [] := by
  have visits := ho.visits_onEach minds (all.nodup_iff.2 s.nodup_handles) fun h hh =>
    all.mem_iff.1 hh
  have cases : ∀ t, (onEach op order s).1.get? t = (s.get? t).map (fun w => (op w).1) ∧
      eventsOf t (onEach op order s).2 = ((s.get? t).map fun w => (op w).2).getD [] := by
    intro t
    cases hfound : s.find? t with
    | some h =>
      obtain ⟨e, he, registered, -⟩ := ho.find?_eq_some_iff.1 hfound
      exact visits.visited t h (all.mem_iff.2 (mem_handles.2 ⟨e, he, registered⟩)) hfound
    | none =>
      have hothers := visits.others t fun h _ => by simp [hfound]
      rw [ho.get?_eq_none_iff.2 hfound] at hothers ⊢
      exact hothers
  exact ⟨⟨visits.orderly, visits.config, fun t => (cases t).1⟩, fun t => (cases t).2⟩

end Sessions

end ReliableMulticast
