import Langsvr.RequestSteps

/-!
# The histories of a session

The relation between the ids, the promises and the handlers of the requests of a session.
Every step of the requests preserves it, up to the last id.
-/

namespace Langsvr

open Json (Value Member)
open Lsp (LspValue Declarations)

namespace World

section Histories

/-- The ids that `SendRequest` has taken, one for each call, the latest first. -/
def allocatedIds (w : World) : List Int64 :=
  w.history.filterMap fun | .allocated id => some id | _ => none

def issuedIds (w : World) : List Int64 :=
  w.history.filterMap fun | .issued id .. => some id | _ => none

def issuedPromises (w : World) : List ℕ :=
  w.history.filterMap fun | .issued _ promise .. => some promise | _ => none

def invokedPromises (w : World) : List ℕ :=
  w.history.filterMap fun | .invoked promise _ => some promise | _ => none

def settledPromises (w : World) : List ℕ :=
  w.history.filterMap fun | .settled promise _ => some promise | _ => none

variable {w : World} {id : Int64} {promise : ℕ} {type : RequestType} {params : LspValue}
  {message response : Value}

theorem mem_issuedIds (h : .issued id promise type params message ∈ w.history) :
    id ∈ w.issuedIds := List.mem_filterMap.mpr ⟨_, h, rfl⟩

theorem mem_issuedPromises (h : .issued id promise type params message ∈ w.history) :
    promise ∈ w.issuedPromises := List.mem_filterMap.mpr ⟨_, h, rfl⟩

theorem mem_invokedPromises (h : .invoked promise response ∈ w.history) :
    promise ∈ w.invokedPromises := List.mem_filterMap.mpr ⟨_, h, rfl⟩

theorem exists_invoked (h : promise ∈ w.invokedPromises) :
    ∃ response, .invoked promise response ∈ w.history := by
  obtain ⟨e, he, hp⟩ := List.mem_filterMap.mp h
  cases e with
  | invoked p r =>
    cases hp
    exact ⟨r, he⟩
  | _ => cases hp

theorem exists_settled (h : promise ∈ w.settledPromises) :
    ∃ value, .settled promise value ∈ w.history := by
  obtain ⟨e, he, hp⟩ := List.mem_filterMap.mp h
  cases e with
  | settled p value =>
    cases hp
    exact ⟨value, he⟩
  | _ => cases hp

end Histories

/-- What holds of the requests of a session before its ids run out. -/
structure Consistent (env : Declarations) (w : World) : Prop where
  next : w.session.nextRequestId.toInt = w.allocatedIds.length + 1
  allocated : ∀ id ∈ w.allocatedIds, 1 ≤ id.toInt ∧ id.toInt ≤ w.allocatedIds.length
  allocated_nodup : w.allocatedIds.Nodup
  issued_sublist : w.issuedIds.Sublist w.allocatedIds
  issued_lt : ∀ p ∈ w.issuedPromises, p < w.promises.length
  issued_nodup : w.issuedPromises.Nodup
  issued : ∀ id p type params message, .issued id p type params message ∈ w.history →
    message.getI64 "id" = .ok id
  pending : ∀ id handler, List.lookup id w.session.responseHandlers = some handler →
    ∃ type params message, .issued id handler.promise type params message ∈ w.history ∧
      handler.success = type.success ∧ handler.failure = type.failure ∧
        handler.promise ∉ w.invokedPromises ∧ w.promises[handler.promise]? = some none
  kept : ∀ id p type params message, .issued id p type params message ∈ w.history →
    p ∉ w.invokedPromises →
      List.lookup id w.session.responseHandlers = some ⟨p, type.success, type.failure⟩
  invoked : ∀ p response, .invoked p response ∈ w.history →
    ∃ id type params message, .issued id p type params message ∈ w.history ∧
      response.getI64 "id" = .ok id
  invoked_nodup : w.invokedPromises.Nodup
  settled_invoked : ∀ p ∈ w.settledPromises, p ∈ w.invokedPromises
  settled_nodup : w.settledPromises.Nodup
  settled : ∀ p value, .settled p value ∈ w.history ↔ w.promises[p]? = some (some value)

namespace Consistent

variable {env : Declarations} {w : World} (h : w.Consistent env)
include h

theorem issued_ids_nodup : w.issuedIds.Nodup := h.issued_sublist.nodup h.allocated_nodup

/-- A request is determined by its id. -/
theorem issued_unique {id : Int64} {p q : ℕ} {type type' : RequestType}
    {params params' : LspValue} {message message' : Value}
    (hp : .issued id p type params message ∈ w.history)
    (hq : .issued id q type' params' message' ∈ w.history) :
    Event.issued id p type params message = .issued id q type' params' message' :=
  ListRelations.eq_of_filterMap_nodup h.issued_ids_nodup hp hq rfl rfl

theorem issued_unique_promise {id id' : Int64} {p : ℕ} {type type' : RequestType}
    {params params' : LspValue} {message message' : Value}
    (hp : .issued id p type params message ∈ w.history)
    (hq : .issued id' p type' params' message' ∈ w.history) :
    Event.issued id p type params message = .issued id' p type' params' message' :=
  ListRelations.eq_of_filterMap_nodup h.issued_nodup hp hq rfl rfl

theorem issued_bounds {id : Int64} {p : ℕ} {type : RequestType} {params : LspValue}
    {message : Value} (hp : .issued id p type params message ∈ w.history) :
    1 ≤ id.toInt ∧ id.toInt < w.session.nextRequestId.toInt := by
  have hb := h.allocated id (h.issued_sublist.subset (mem_issuedIds hp))
  have hn := h.next
  omega

/-- The id that is allocated next is not one of a pending request. -/
theorem lookup_next : List.lookup w.session.nextRequestId w.session.responseHandlers =
    none := by
  cases hl : List.lookup w.session.nextRequestId w.session.responseHandlers with
  | none => rfl
  | some handler =>
    obtain ⟨type, params, message, hi, -⟩ := h.pending _ _ hl
    have hb := h.issued_bounds hi
    omega

theorem unset {id : Int64} {handler : ResponseHandler}
    (hl : List.lookup id w.session.responseHandlers = some handler) :
    w.promises[handler.promise]? = some none := by
  obtain ⟨-, -, -, -, -, -, -, hnone⟩ := h.pending id handler hl
  exact hnone

theorem next_promise : w.promises.length ∉ w.invokedPromises := by
  intro hp
  obtain ⟨response, hr⟩ := exists_invoked hp
  obtain ⟨id, type, params, message, hi, -⟩ := h.invoked _ _ hr
  exact (h.issued_lt _ (mem_issuedPromises hi)).ne rfl

theorem settled_eq_none {p : ℕ} (hp : w.promises[p]? = some none) : p ∉ w.settledPromises := by
  intro hs
  obtain ⟨value, hmem⟩ := exists_settled hs
  have hv := (h.settled p value).mp hmem
  cases hp.symm.trans hv

theorem configure {session : Session} (hn : session.nextRequestId = w.session.nextRequestId)
    (hr : session.responseHandlers = w.session.responseHandlers) :
    Consistent env { w with session := session } :=
  { h with next := hn ▸ h.next, pending := hr ▸ h.pending, kept := hr ▸ h.kept }

theorem next_add_one (hn : w.allocatedIds.length + 1 < 2 ^ 63 - 1) :
    (w.session.nextRequestId + 1).toInt = w.allocatedIds.length + 1 + 1 := by
  have hone : (1 : Int64).toInt = 1 := by decide
  rw [Int64.toInt_add, h.next, hone]
  exact Int.bmod_eq_of_le (by omega) (by omega)

theorem allocateId (hn : w.allocatedIds.length + 1 < 2 ^ 63 - 1) :
    Consistent env w.allocateId :=
  have hnext := h.next
  { h with
    next := h.next_add_one hn
    allocated := by
      intro id hid
      rcases List.mem_cons.mp hid with rfl | hid
      · exact ⟨by omega, by rw [hnext]; exact le_refl _⟩
      · obtain ⟨hle, hlt⟩ := h.allocated id hid
        exact ⟨hle, hlt.trans (by exact_mod_cast Nat.le_succ _)⟩
    allocated_nodup := by
      refine List.nodup_cons.mpr ⟨fun hid => ?_, h.allocated_nodup⟩
      have hlt := (h.allocated _ hid).2
      omega
    issued_sublist := h.issued_sublist.cons _
    issued := fun id p type params message hi =>
      h.issued id p type params message (List.mem_of_ne_of_mem (by simp) hi)
    pending := by
      intro id handler hl
      obtain ⟨type, params, message, hi, hrest⟩ := h.pending id handler hl
      exact ⟨type, params, message, List.mem_cons_of_mem _ hi, hrest⟩
    kept := fun id p type params message hi =>
      h.kept id p type params message (List.mem_of_ne_of_mem (by simp) hi)
    invoked := by
      intro p response hp
      obtain ⟨id, type, params, message, hi, hid⟩ :=
        h.invoked p response (List.mem_of_ne_of_mem (by simp) hp)
      exact ⟨id, type, params, message, List.mem_cons_of_mem _ hi, hid⟩
    settled := by
      intro p value
      have hp := h.settled p value
      simpa [World.allocateId] using hp }

theorem lookup_issue (type : RequestType) (params : LspValue) (message : Value) (id : Int64) :
    List.lookup id (w.issue type params message).session.responseHandlers =
      if id = w.session.nextRequestId then some ⟨w.promises.length, type.success, type.failure⟩
      else List.lookup id w.session.responseHandlers := by
  have hl : List.lookup w.session.nextRequestId
      w.allocateId.makePromise.session.responseHandlers = none := h.lookup_next
  simp only [World.issue, emplaceHandler, hl, OrderedEntries.lookup_assign]
  rfl

theorem issue (hn : w.allocatedIds.length + 1 < 2 ^ 63 - 1) {type : RequestType}
    {params : LspValue} {message : Value}
    (hm : message.getI64 "id" = .ok w.session.nextRequestId) :
    Consistent env (w.issue type params message) :=
  have hw := h.allocateId hn
  have hpromises : ∀ {p : ℕ} {s : Option Reply}, w.promises[p]? = some s →
      (w.promises ++ [none])[p]? = some s := fun {p s} hp => by
    rw [List.getElem?_append_left (List.getElem?_eq_some_iff.mp hp).1]
    exact hp
  { hw with
    issued_sublist := h.issued_sublist.cons_cons _
    issued_lt := by
      intro p hp
      rw [show (w.issue type params message).promises = w.promises ++ [none] from rfl,
        List.length_append, List.length_singleton]
      rcases List.mem_cons.mp hp with rfl | hp
      · exact Nat.lt_succ_self _
      · exact Nat.lt_succ_of_lt (h.issued_lt p hp)
    issued_nodup :=
      List.nodup_cons.mpr ⟨fun hp => (h.issued_lt _ hp).ne rfl, h.issued_nodup⟩
    issued := by
      intro id p type' params' message' hi
      rcases List.mem_cons.mp hi with hi | hi
      · cases hi
        exact hm
      · exact hw.issued id p type' params' message' hi
    pending := by
      intro id handler hl
      rw [h.lookup_issue] at hl
      split at hl
      · rename_i hid
        subst hid
        cases hl
        exact ⟨type, params, message, List.mem_cons_self .., rfl, rfl, h.next_promise,
          List.getElem?_concat_length⟩
      · obtain ⟨type', params', message', hi, hs, hf, hinv, hp⟩ := hw.pending id handler hl
        exact ⟨type', params', message', List.mem_cons_of_mem _ hi, hs, hf, hinv, hpromises hp⟩
    kept := by
      intro id p type' params' message' hi hinv
      rw [h.lookup_issue]
      rcases List.mem_cons.mp hi with hi | hi
      · cases hi
        exact if_pos rfl
      · have hold : .issued id p type' params' message' ∈ w.history :=
          List.mem_of_ne_of_mem (by simp) hi
        rw [if_neg, h.kept id p type' params' message' hold hinv]
        rintro rfl
        have hlt := (h.issued_bounds hold).2
        omega
    invoked := by
      intro p response hp
      obtain ⟨id, type', params', message', hi, hid⟩ :=
        hw.invoked p response (List.mem_of_ne_of_mem (by simp) hp)
      exact ⟨id, type', params', message', List.mem_cons_of_mem _ hi, hid⟩
    settled := by
      intro p value
      constructor
      · intro hp
        exact hpromises ((hw.settled p value).mp (List.mem_of_ne_of_mem (by simp) hp))
      · intro hp
        have hlt : p < w.promises.length := by
          by_contra hge
          have hconcat : (w.promises ++ [none])[p]? = some (some value) := hp
          rw [List.getElem?_append_right (by omega)] at hconcat
          cases hk : p - w.promises.length with
          | zero => rw [hk] at hconcat; cases hconcat
          | succ k => rw [hk] at hconcat; cases hconcat
        have hold : w.promises[p]? = some (some value) :=
          (List.getElem?_append_left hlt).symm.trans hp
        exact List.mem_cons_of_mem _ ((hw.settled p value).mpr hold) }

/-- A handler is taken out for a response with its id. -/
theorem takeHandler {id : Int64} {handler : ResponseHandler} {response : Value}
    (hid : response.getI64 "id" = .ok id)
    (hl : List.lookup id w.session.responseHandlers = some handler) :
    Consistent env (w.takeHandler id handler response) := by
  obtain ⟨type, params, message, hi, hs, hf, hinv, hp⟩ := h.pending id handler hl
  exact { h with
    issued := fun id p type params message hi =>
      h.issued id p type params message (List.mem_of_ne_of_mem (by simp) hi)
    pending := by
      intro id' handler' hl'
      rw [show (w.takeHandler id handler response).session.responseHandlers =
          OrderedEntries.remove id w.session.responseHandlers from rfl,
        OrderedEntries.lookup_remove] at hl'
      split at hl'
      · cases hl'
      · rename_i hne
        obtain ⟨type', params', message', hi', hs', hf', hinv', hp'⟩ := h.pending id' handler' hl'
        refine ⟨type', params', message', List.mem_cons_of_mem _ hi', hs', hf', ?_, hp'⟩
        intro hmem
        rcases List.mem_cons.mp hmem with heq | hmem
        · rw [heq] at hi'
          cases h.issued_unique_promise hi hi'
          exact hne rfl
        · exact hinv' hmem
    kept := by
      intro id' p type' params' message' hi' hnot
      have hold : .issued id' p type' params' message' ∈ w.history :=
        List.mem_of_ne_of_mem (by simp) hi'
      rw [show (w.takeHandler id handler response).session.responseHandlers =
          OrderedEntries.remove id w.session.responseHandlers from rfl,
        OrderedEntries.lookup_remove, if_neg]
      · exact h.kept id' p type' params' message' hold fun hp => hnot (List.mem_cons_of_mem _ hp)
      · rintro rfl
        cases h.issued_unique hi hold
        exact hnot (List.mem_cons_self ..)
    invoked := by
      intro p response' hp
      rcases List.mem_cons.mp hp with hp | hp
      · cases hp
        exact ⟨id, type, params, message, List.mem_cons_of_mem _ hi, hid⟩
      · obtain ⟨id', type', params', message', hi', hid'⟩ := h.invoked p response' hp
        exact ⟨id', type', params', message', List.mem_cons_of_mem _ hi', hid'⟩
    invoked_nodup := List.nodup_cons.mpr ⟨hinv, h.invoked_nodup⟩
    settled_invoked := fun p hp => List.mem_cons_of_mem _ (h.settled_invoked p hp)
    settled := by
      intro p value
      have hp := h.settled p value
      simpa [World.takeHandler] using hp }

/-- The promise of a handler that has been taken out is set. -/
theorem setValue {p : ℕ} {value : Reply} (hinv : p ∈ w.invokedPromises)
    (hp : w.promises[p]? = some none) : Consistent env (w.setValue p value) :=
  { h with
    issued_lt := by
      intro q hq
      rw [show (w.setValue p value).promises = w.promises.set p (some value) from rfl,
        List.length_set]
      exact h.issued_lt q hq
    issued := fun id p type params message hi =>
      h.issued id p type params message (List.mem_of_ne_of_mem (by simp) hi)
    pending := by
      intro id handler hl
      obtain ⟨type, params, message, hi, hs, hf, hnot, hnone⟩ := h.pending id handler hl
      refine ⟨type, params, message, List.mem_cons_of_mem _ hi, hs, hf, hnot, ?_⟩
      have hne : p ≠ handler.promise := by
        rintro rfl
        exact hnot hinv
      exact (List.getElem?_set_ne hne).trans hnone
    kept := fun id q type params message hi =>
      h.kept id q type params message (List.mem_of_ne_of_mem (by simp) hi)
    invoked := by
      intro q response hq
      obtain ⟨id, type, params, message, hi, hid⟩ :=
        h.invoked q response (List.mem_of_ne_of_mem (by simp) hq)
      exact ⟨id, type, params, message, List.mem_cons_of_mem _ hi, hid⟩
    settled_invoked := by
      intro q hq
      rcases List.mem_cons.mp hq with rfl | hq
      · exact hinv
      · exact h.settled_invoked q hq
    settled_nodup := List.nodup_cons.mpr ⟨h.settled_eq_none hp, h.settled_nodup⟩
    settled := by
      intro q v
      have hset : (w.setValue p value).promises[q]? =
          if p = q then some (some value) else w.promises[q]? := by
        rw [show (w.setValue p value).promises = w.promises.set p (some value) from rfl,
          List.getElem?_set]
        split
        · rename_i heq
          subst heq
          simpa using (List.getElem?_eq_some_iff.mp hp).1
        · rfl
      rw [hset]
      constructor
      · intro hv
        rcases List.mem_cons.mp hv with hv | hv
        · cases hv
          simp
        · have hold := (h.settled q v).mp hv
          rw [if_neg]
          · exact hold
          · rintro rfl
            cases hp.symm.trans hold
      · intro hv
        split at hv
        · rename_i heq
          subst heq
          cases hv
          exact List.mem_cons_self ..
        · exact List.mem_cons_of_mem _ ((h.settled q v).mpr hv) }

end Consistent

section Steps

variable {text : JsonText} {env : Declarations} {allow : World → Session.Operation → Prop}
  {w u : World}

theorem Step.allocatedIds_le {e : Program.Ending Crash Call} (h : Step text env allow w e u) :
    w.allocatedIds.length ≤ u.allocatedIds.length := by
  cases h with
  | allocate => exact Nat.le_succ _
  | unsent => exact Nat.le_succ _
  | sent => exact Nat.le_succ _
  | _ => exact le_refl _

/-- Every step keeps the requests consistent, and no promise is set twice. -/
theorem Step.consistent {e : Program.Ending Crash Call} (h : Step text env allow w e u)
    (hw : w.Consistent env) (hn : u.allocatedIds.length < 2 ^ 63 - 1) :
    u.Consistent env ∧ e ≠ .aborted .promiseAlreadySatisfied := by
  cases h with
  | configure he hnext hr => exact ⟨hw.configure hnext hr, he⟩
  | allocate he => exact ⟨hw.allocateId hn, he⟩
  | unsent _ he => exact ⟨hw.issue hn (Session.getI64_requestMessage he), by simp⟩
  | sent _ he => exact ⟨hw.issue hn (Session.getI64_requestMessage he), by simp⟩
  | settle _ hr hl hv hp =>
    exact ⟨(hw.takeHandler hr.id hl).setValue (List.mem_cons_self ..) hp, by simp⟩
  | drop _ hr hl hv => exact ⟨hw.takeHandler hr.id hl, by simp⟩
  | overset _ _ hl hp => exact absurd (hw.unset hl) hp

theorem consistent_init (env : Declarations) : Consistent env {} where
  next := by decide
  allocated := by simp [allocatedIds]
  allocated_nodup := List.nodup_nil
  issued_sublist := List.Sublist.slnil
  issued_lt := by simp [issuedPromises]
  issued_nodup := List.nodup_nil
  issued := by simp
  pending := by simp
  kept := by simp
  invoked := by simp
  invoked_nodup := List.nodup_nil
  settled_invoked := by simp [settledPromises]
  settled_nodup := List.nodup_nil
  settled := by simp

/-- What every step preserves while the requests are consistent holds at the end of a run
that does not use up the ids, and so does their consistency. -/
theorem invariant_of_runs {I : World → Prop} {e : Option Crash}
    (h : Program.Runs (Step text env allow) {} e w) (hn : w.allocatedIds.length < 2 ^ 63 - 1)
    (hI : I {}) (hstep : ∀ w e u, w.Consistent env → I w → Step text env allow w e u →
      u.Consistent env → I u) :
    (w.Consistent env ∧ I w) ∧ e ≠ some .promiseAlreadySatisfied := by
  revert hn
  refine h.invariant (I := fun e w => w.allocatedIds.length < 2 ^ 63 - 1 →
    (w.Consistent env ∧ I w) ∧ e ≠ some .promiseAlreadySatisfied) ?_ ?_
  · intro _
    exact ⟨⟨consistent_init env, hI⟩, by simp⟩
  · intro w e u hw hs hn
    obtain ⟨hc, hi⟩ := (hw (lt_of_le_of_lt hs.allocatedIds_le hn)).1
    obtain ⟨hu, he⟩ := hs.consistent hc hn
    refine ⟨⟨hu, hstep w e u hc hi hs hu⟩, ?_⟩
    cases e with
    | aborted crash => simpa [Program.Ending.abort] using he
    | _ => simp [Program.Ending.abort]

/-- The requests are consistent in every run that does not use up the ids. -/
theorem consistent_of_runs {e : Option Crash} (h : Program.Runs (Step text env allow) {} e w)
    (hn : w.allocatedIds.length < 2 ^ 63 - 1) :
    w.Consistent env ∧ e ≠ some .promiseAlreadySatisfied := by
  obtain ⟨⟨hc, -⟩, he⟩ := invariant_of_runs (I := fun _ => True) h hn trivial
    fun _ _ _ _ _ _ _ => trivial
  exact ⟨hc, he⟩

end Steps

end World

end Langsvr
