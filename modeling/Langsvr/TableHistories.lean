import Langsvr.PendingRequests

/-!
# The history of the table of pending requests

The entries of the table follow from what has happened to the requests. After a sequence
of events the table is what it was before if and only if a response was accepted after each
handler that was entered, and none for a request that was pending before.
-/

namespace Langsvr

open Json (Value)
open Lsp (LspValue Declarations)

namespace Event

/-- A handler is entered for the id, unless there is one. -/
def Enters (id : Int64) : Event → Prop
  | .issued i .. => i = id
  | _ => False

def Takes (id : Int64) : Event → Prop
  | .invoked _ response => response.getI64 "id" = .ok id
  | _ => False

/-- What an event makes of the entry of an id. -/
def onEntry (id : Int64) : Event → Option ResponseHandler → Option ResponseHandler
  | .issued i promise type .., entry =>
    if i = id then entry.or (some ⟨promise, type.success, type.failure⟩) else entry
  | .invoked _ response, entry => if response.getI64 "id" = .ok id then none else entry
  | _, entry => entry

variable {id : Int64} {e : Event} {entry : Option ResponseHandler}

theorem onEntry_of_takes (h : e.Takes id) : e.onEntry id entry = none := by
  cases e with
  | invoked promise response => exact if_pos h
  | _ => exact h.elim

theorem onEntry_some (h : ¬ e.Takes id) (handler : ResponseHandler) :
    e.onEntry id (some handler) = some handler := by
  cases e with
  | issued i => simp [onEntry]
  | invoked promise response => exact if_neg h
  | _ => rfl

theorem onEntry_of_enters (h : e.Enters id) : ∃ handler, e.onEntry id entry = some handler := by
  cases e with
  | issued i =>
    obtain rfl : i = id := h
    cases entry <;> simp [onEntry]
  | _ => exact h.elim

theorem onEntry_none (h : ¬ e.Enters id) : e.onEntry id none = none := by
  cases e with
  | issued i => exact if_neg h
  | invoked promise response => simp [onEntry]
  | _ => rfl

theorem not_takes_of_enters (h : e.Enters id) : ¬ e.Takes id := by
  cases e with
  | issued => exact fun ht => ht
  | _ => exact h.elim

/-- An entry that an event makes is the handler of a request. -/
theorem eq_issued_of_onEntry {handler : ResponseHandler} (h : e.onEntry id none = some handler) :
    ∃ type params message, e = .issued id handler.promise type params message := by
  cases e with
  | issued i p type params message =>
    by_cases hi : i = id
    · simp only [onEntry, hi, if_true, Option.none_or, Option.some.injEq] at h
      subst hi h
      exact ⟨type, params, message, rfl⟩
    · simp [onEntry, hi] at h
  | invoked => simp [onEntry] at h
  | _ => cases h

end Event

namespace World

/-- The events, the newest first, have left the table of the state as it was. -/
structure Undone (w : World) (events : List Event) : Prop where
  /-- After each handler that was entered, a response for its id was accepted. -/
  answered : ∀ id ∉ OrderedEntries.keys w.session.responseHandlers, ∀ later e earlier,
    events = later ++ e :: earlier → e.Enters id → ∃ r ∈ later, r.Takes id
  /-- No response was accepted for a request that was pending. -/
  pending : ∀ id ∈ OrderedEntries.keys w.session.responseHandlers, ∀ e ∈ events, ¬ e.Takes id

section Entries

variable {id : Int64} {events : List Event}

/-- An id without an entry has none after the events if and only if each handler that was
entered for it was taken out later. -/
theorem foldr_onEntry_none_iff : events.foldr (Event.onEntry id) none = none ↔
    ∀ later e earlier, events = later ++ e :: earlier → e.Enters id → ∃ r ∈ later, r.Takes id := by
  induction events with
  | nil => simp
  | cons x events ih =>
    rw [List.foldr_cons]
    by_cases ht : x.Takes id
    · refine iff_of_true (Event.onEntry_of_takes ht) fun later e earlier heq he => ?_
      cases later with
      | nil =>
        cases heq
        exact absurd ht (Event.not_takes_of_enters he)
      | cons y later =>
        cases heq
        exact ⟨x, List.mem_cons_self .., ht⟩
    · by_cases hx : x.Enters id
      · obtain ⟨handler, hentry⟩ : ∃ handler,
            x.onEntry id (events.foldr (Event.onEntry id) none) = some handler :=
          Event.onEntry_of_enters hx
        refine iff_of_false (by simp [hentry]) fun h => ?_
        obtain ⟨r, hr, -⟩ := h [] x events rfl hx
        cases hr
      · have hlast : x.onEntry id (events.foldr (Event.onEntry id) none) = none ↔
            events.foldr (Event.onEntry id) none = none := by
          cases events.foldr (Event.onEntry id) none with
          | none => simp [Event.onEntry_none hx]
          | some handler => simp [Event.onEntry_some ht]
        rw [hlast, ih]
        constructor
        · intro h later e earlier heq he
          cases later with
          | nil =>
            cases heq
            exact absurd he hx
          | cons y later =>
            cases heq
            obtain ⟨r, hr, htake⟩ := h later e earlier rfl he
            exact ⟨r, List.mem_cons_of_mem _ hr, htake⟩
        · intro h later e earlier heq he
          obtain ⟨r, hr, htake⟩ := h (x :: later) e earlier (by rw [heq]; rfl) he
          rcases List.mem_cons.mp hr with rfl | hr
          · exact absurd htake ht
          · exact ⟨r, hr, htake⟩

/-- An entry is still there after the events if and only if it was not taken out. A handler
that is entered later has a newer promise. -/
theorem foldr_onEntry_some_iff {handler : ResponseHandler}
    (hnew : ∀ i p type params message, .issued i p type params message ∈ events →
      handler.promise < p) :
    events.foldr (Event.onEntry id) (some handler) = some handler ↔ ∀ e ∈ events, ¬ e.Takes id := by
  suffices h : events.foldr (Event.onEntry id) (some handler) = some handler ∧
      (∀ e ∈ events, ¬ e.Takes id) ∨ (∃ e ∈ events, e.Takes id) ∧
        ∀ other, events.foldr (Event.onEntry id) (some handler) = some other →
          handler.promise < other.promise by
    rcases h with ⟨hf, ht⟩ | ⟨⟨e, he, ht⟩, hf⟩
    · exact iff_of_true hf ht
    · exact iff_of_false (fun h => lt_irrefl _ (hf _ h)) fun h => h e he ht
  induction events with
  | nil => exact Or.inl ⟨rfl, by simp⟩
  | cons x events ih =>
    have hrest := ih fun i p type params message hi => hnew i p type params message (.tail _ hi)
    rw [List.foldr_cons]
    by_cases ht : x.Takes id
    · refine Or.inr ⟨⟨x, List.mem_cons_self .., ht⟩, fun other ho => ?_⟩
      rw [Event.onEntry_of_takes ht] at ho
      cases ho
    · rcases hrest with ⟨hf, hkept⟩ | ⟨⟨e, he, htake⟩, hf⟩
      · rw [hf, Event.onEntry_some ht]
        exact Or.inl ⟨rfl, List.forall_mem_cons.mpr ⟨ht, hkept⟩⟩
      · refine Or.inr ⟨⟨e, List.mem_cons_of_mem _ he, htake⟩, fun other ho => ?_⟩
        cases hr : events.foldr (Event.onEntry id) (some handler) with
        | some kept =>
          rw [hr, Event.onEntry_some ht] at ho
          cases ho
          exact hf _ hr
        | none =>
          rw [hr] at ho
          obtain ⟨type, params, message, rfl⟩ := Event.eq_issued_of_onEntry ho
          exact hnew _ _ type params message (List.mem_cons_self ..)

end Entries

/-- What has happened from one state of a session to another. -/
structure Extends (w : World) (events : List Event) (u : World) : Prop where
  history : u.history = events ++ w.history
  entries : ∀ id, List.lookup id u.session.responseHandlers =
    events.foldr (Event.onEntry id) (List.lookup id w.session.responseHandlers)
  fresh : ∀ id p type params message, .issued id p type params message ∈ events →
    w.promises.length ≤ p ∧ p < u.promises.length
  grows : w.promises.length ≤ u.promises.length
  ordered : OrderedEntries.Ordered w.session.responseHandlers →
    OrderedEntries.Ordered u.session.responseHandlers

namespace Extends

variable {w u v : World} {events later : List Event}

theorem refl (w : World) : w.Extends [] w where
  history := rfl
  entries _ := rfl
  fresh := by simp
  grows := le_refl _
  ordered := id

theorem trans (h : w.Extends events u) (h' : u.Extends later v) :
    w.Extends (later ++ events) v where
  history := by rw [h'.history, h.history, List.append_assoc]
  entries id := by rw [h'.entries, h.entries, List.foldr_append]
  fresh id p type params message hi := by
    rcases List.mem_append.mp hi with hi | hi
    · obtain ⟨hle, hlt⟩ := h'.fresh id p type params message hi
      exact ⟨h.grows.trans hle, hlt⟩
    · obtain ⟨hle, hlt⟩ := h.fresh id p type params message hi
      exact ⟨hle, hlt.trans_le h'.grows⟩
  grows := h.grows.trans h'.grows
  ordered ho := h'.ordered (h.ordered ho)

theorem allocateId (w : World) :
    w.Extends [.allocated w.session.nextRequestId] w.allocateId where
  history := rfl
  entries _ := rfl
  fresh := by simp
  grows := le_refl _
  ordered := id

theorem issue (w : World) (type : RequestType) (params : LspValue) (message : Value) :
    w.Extends [.issued w.session.nextRequestId w.promises.length type params message,
      .allocated w.session.nextRequestId] (w.issue type params message) where
  history := rfl
  entries id := by
    simp only [World.issue, World.emplaceHandler, World.makePromise, World.allocateId,
      List.foldr_cons, List.foldr_nil, Event.onEntry]
    cases hl : List.lookup w.session.nextRequestId w.session.responseHandlers with
    | some handler =>
      by_cases hid : w.session.nextRequestId = id
      · subst hid
        simp [hl]
      · simp [hid]
    | none =>
      rw [OrderedEntries.lookup_assign]
      by_cases hid : w.session.nextRequestId = id
      · subst hid
        simp [hl]
      · simp [hid, Ne.symm hid]
  fresh id p type' params' message' hi := by
    simp only [List.mem_cons, List.not_mem_nil, or_false, reduceCtorEq] at hi
    cases hi
    simp [World.issue, World.emplaceHandler, World.makePromise, World.allocateId]
  grows := by simp [World.issue, World.emplaceHandler, World.makePromise, World.allocateId]
  ordered ho := by
    simp only [World.issue, World.emplaceHandler, World.makePromise, World.allocateId]
    cases List.lookup w.session.nextRequestId w.session.responseHandlers with
    | some handler => exact ho
    | none => exact ho.assign _ _

theorem takeHandler (w : World) {id : Int64} (handler : ResponseHandler) {response : Value}
    (hid : response.getI64 "id" = .ok id) :
    w.Extends [.invoked handler.promise response] (w.takeHandler id handler response) where
  history := rfl
  entries id' := by
    simp only [World.takeHandler, OrderedEntries.lookup_remove, List.foldr_cons, List.foldr_nil,
      Event.onEntry, hid, Except.ok.injEq, eq_comm]
  fresh := by simp
  grows := le_refl _
  ordered ho := ho.remove id

theorem setValue (w : World) (promise : ℕ) (value : Reply) :
    w.Extends [.settled promise value] (w.setValue promise value) where
  history := rfl
  entries _ := rfl
  fresh := by simp
  grows := by simp [World.setValue]
  ordered := id

theorem of_step {text : JsonText} {env : Declarations} {allow : World → Session.Operation → Prop}
    {e : Program.Ending Crash Call} (h : World.Step text env allow w e u) :
    ∃ events, w.Extends events u := by
  cases h with
  | configure he hn hr =>
    exact ⟨[], rfl, fun id => by rw [hr]; rfl, by simp, le_refl _, fun ho => by rw [hr]; exact ho⟩
  | allocate => exact ⟨_, allocateId w⟩
  | unsent => exact ⟨_, issue w _ _ _⟩
  | sent => exact ⟨_, issue w _ _ _⟩
  | settle _ hr => exact ⟨_, (takeHandler w _ hr.id).trans (setValue _ _ _)⟩
  | drop _ hr => exact ⟨_, takeHandler w _ hr.id⟩
  | overset _ hr => exact ⟨_, takeHandler w _ hr.id⟩

theorem of_runs {text : JsonText} {env : Declarations} {allow : World → Session.Operation → Prop}
    {e : Option Crash} (h : Program.Runs (World.Step text env allow) w e u) :
    ∃ events, w.Extends events u := by
  refine h.invariant (I := fun _ u => ∃ events, w.Extends events u) ⟨[], refl w⟩ ?_
  intro u e v hu hs
  obtain ⟨events, hu⟩ := hu
  obtain ⟨later, hv⟩ := of_step hs
  exact ⟨_, hu.trans hv⟩

end Extends

/-- What holds of the table in every state of a session: its entries are in order, and its
handlers hold promises that were made. -/
structure Proper (w : World) : Prop where
  ordered : OrderedEntries.Ordered w.session.responseHandlers
  made : ∀ id handler, List.lookup id w.session.responseHandlers = some handler →
    handler.promise < w.promises.length

private theorem issued_of_foldr {id : Int64} {events : List Event} {handler : ResponseHandler}
    (h : events.foldr (Event.onEntry id) none = some handler) :
    ∃ type params message, .issued id handler.promise type params message ∈ events := by
  induction events with
  | nil => cases h
  | cons x events ih =>
    rw [List.foldr_cons] at h
    cases hr : events.foldr (Event.onEntry id) none with
    | some kept =>
      by_cases ht : x.Takes id
      · rw [Event.onEntry_of_takes ht] at h
        cases h
      · rw [hr, Event.onEntry_some ht] at h
        cases h
        obtain ⟨type, params, message, hi⟩ := ih hr
        exact ⟨type, params, message, List.mem_cons_of_mem _ hi⟩
    | none =>
      rw [hr] at h
      obtain ⟨type, params, message, rfl⟩ := Event.eq_issued_of_onEntry h
      exact ⟨type, params, message, List.mem_cons_self ..⟩

theorem Extends.proper {u : World} {events : List Event} (h : Extends {} events u) :
    u.Proper where
  ordered := h.ordered .nil
  made id handler hl := by
    rw [h.entries] at hl
    obtain ⟨type, params, message, hi⟩ := issued_of_foldr hl
    exact (h.fresh id _ type params message hi).2

/-- The table is what it was if and only if the events have left it as it was. -/
theorem Extends.responseHandlers_eq_iff {w u : World} {events : List Event}
    (h : w.Extends events u) (hw : w.Proper) :
    u.session.responseHandlers = w.session.responseHandlers ↔ w.Undone events := by
  have hentry : ∀ id, List.lookup id u.session.responseHandlers =
      List.lookup id w.session.responseHandlers ↔
        (id ∉ OrderedEntries.keys w.session.responseHandlers → ∀ later e earlier,
          events = later ++ e :: earlier → e.Enters id → ∃ r ∈ later, r.Takes id) ∧
        (id ∈ OrderedEntries.keys w.session.responseHandlers → ∀ e ∈ events, ¬ e.Takes id) := by
    intro id
    rw [h.entries]
    cases hl : List.lookup id w.session.responseHandlers with
    | none =>
      have hid := (OrderedEntries.lookup_eq_none_iff id _).mp hl
      rw [foldr_onEntry_none_iff]
      simp [hid]
    | some handler =>
      have hid := (OrderedEntries.lookup_isSome_iff id _).mp (by rw [hl]; rfl)
      rw [foldr_onEntry_some_iff fun i p type params message hi =>
        (hw.made id handler hl).trans_le (h.fresh i p type params message hi).1]
      simp [hid]
  constructor
  · intro heq
    exact ⟨fun id hid => ((hentry id).mp (by rw [heq])).1 hid,
      fun id hid => ((hentry id).mp (by rw [heq])).2 hid⟩
  · intro hu
    exact OrderedEntries.Ordered.ext (h.ordered hw.ordered) hw.ordered fun id =>
      (hentry id).mpr ⟨hu.answered id, hu.pending id⟩

end World

end Langsvr
