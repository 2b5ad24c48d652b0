import Langsvr.ConformingMessages
import Langsvr.RequestCorrelation
import Langsvr.RereadValues
import Mathlib.Data.Set.Countable
import Mathlib.Logic.Equiv.List

/-!
# Messages that survive their texts

A message survives when its text keeps what was encoded and when its values come back from what
was encoded. Two sessions that are used with values of types that see to the latter understand
each other, and what is in flight between them conforms to the metamodel.
-/

namespace Langsvr

open Json (Value Member)
open Lsp (LspType LspValue Declarations HasType Faithful encode decodeNew)
open Session (IsRequest IsResponse IsNotification)

/-- What can be part of a text: the keys are in order, the numbers are finite, and the nesting
is within a limit. -/
structure Json.Value.Bounded (limit : ℕ) (v : Value) : Prop where
  wellFormed : v.WellFormed
  finite : v.FiniteReals
  depth : v.depth ≤ limit

/-- The texts keep what is written. The limit is that of the parser. -/
def JsonText.Keeps (text : JsonText) (limit : ℕ) : Prop :=
  ∀ v : Value, v.Bounded limit → ∃ w, text.parse (text.write v) = .ok w ∧ v.Rereads w

/-- A value that can be a part of a message. -/
structure Writable (limit : ℕ) (env : Declarations) (t : LspType) (x : LspValue) : Prop where
  hasType : HasType env t x
  finite : x.FiniteDecimals
  shallow : x.depth < limit

def ParamsWritable (limit : ℕ) (env : Declarations) (type : Option LspType) (params : LspValue) :
    Prop :=
  ∀ t, type = some t → Writable limit env t params

def ReplyWritable (limit : ℕ) (env : Declarations) (type : RequestType) : Reply → Prop
  | .success x => Writable limit env type.success x
  | .failure x => ∃ t, type.failure = some t ∧ Writable limit env t x

/-- The value is encoded and decoded as it was. -/
def ComesBack (env : Declarations) (t : LspType) (x : LspValue) : Prop :=
  x.AllSet ∧ Faithful env t x

def ParamsComeBack (env : Declarations) (type : Option LspType) (params : LspValue) : Prop :=
  ∀ t, type = some t → ComesBack env t params

def ReplyComesBack (env : Declarations) (type : RequestType) : Reply → Prop
  | .success x => ComesBack env type.success x
  | .failure x => ∀ t, type.failure = some t → ComesBack env t x

variable {text : JsonText} {env : Declarations} {limit : ℕ}

section Messages

theorem Json.Builder.object_bounded {ms : List Member} (h : ∀ m ∈ ms, m.2.Bounded limit) :
    (Json.Builder.object ms).Bounded (limit + 1) := by
  have ho : OrderedEntries.Ordered (OrderedEntries.assignAll [] ms) :=
    OrderedEntries.Ordered.nil.assignAll ms
  have hmem : ∀ m ∈ OrderedEntries.assignAll [] ms, m.2.Bounded limit := by
    intro m hm
    have hl := ho.lookup_of_mem (k := m.1) (a := m.2) hm
    rw [OrderedEntries.lookup_assignAll, List.lookup_nil, Option.or_none] at hl
    exact h m (OrderedEntries.mem_of_lastWrite hl)
  exact {
    wellFormed := ⟨ho, Json.Value.wellFormedMembers_iff.mpr fun m hm => (hmem m hm).wellFormed⟩
    finite := Json.Value.finiteMembers_iff.mpr fun m hm => (hmem m hm).finite
    depth := Nat.succ_le_succ (Lsp.depthMembers_le fun m hm => (hmem m hm).depth) }

theorem Writable.bounded {t : LspType} {x : LspValue} (h : Writable (limit + 1) env t x) {v : Value}
    (hv : encode env t x = .success v) : v.Bounded limit := by
  obtain ⟨hfinite, hdepth⟩ := Lsp.encode_bounded h.hasType h.finite hv
  have hshallow := h.shallow
  exact ⟨Lsp.encode_wellFormed h.hasType hv, hfinite, by omega⟩

/-- A message that holds one encoded value is read as the message with that value if and only if
the value comes back. -/
theorem survives_iff (htext : text.Keeps limit) {t : LspType} {x : LspValue}
    (hx : HasType env t x) (message : Value → Value) (name : String)
    (hb : ∀ v, encode env t x = .success v → (message v).Bounded limit)
    (hget : ∀ v, encode env t x = .success v → (message v).get name = .ok v) :
    (∃ v object, encode env t x = .success v ∧ Network.ReadsBack text (message v) object ∧
      ∀ w, object.get name = .ok w → decodeNew env t w = .ok x) ↔ ComesBack env t x := by
  constructor
  · intro h
    obtain ⟨v, object, hv, hr, hd⟩ := h
    obtain ⟨object', hparse, hrereads⟩ := htext _ (hb v hv)
    cases hr.parse.symm.trans hparse
    obtain ⟨w, hw, hvw⟩ := hrereads.get (hget v hv)
    refine ⟨Lsp.allSet_of_encode_eq_success hx hv, (Lsp.decode_encode_iff hx hv).mp ?_⟩
    exact Lsp.decodeNew_reread hx hvw.symm (hvw.wellFormed (Lsp.encode_wellFormed hx hv)) (hd w hw)
  · intro h
    obtain ⟨v, hv⟩ := Lsp.encode_eq_success_of_allSet hx h.1
    obtain ⟨object, hparse, hrereads⟩ := htext _ (hb v hv)
    refine ⟨v, object, hv, ⟨hparse, hrereads.same (hb v hv).finite⟩, fun w hw => ?_⟩
    obtain ⟨w', hw', hvw⟩ := hrereads.get (hget v hv)
    cases hw.symm.trans hw'
    exact Lsp.decodeNew_reread hx hvw (Lsp.encode_wellFormed hx hv)
      ((Lsp.decode_encode_iff hx hv).mpr h.2)

theorem paramsSurvive_iff (htext : text.Keeps (limit + 1)) {type : Option LspType}
    {params : LspValue} (hx : ParamsWritable (limit + 1) env type params)
    {message : List Member → Value}
    (hb : ∀ members, (∀ m ∈ members, m.2.Bounded limit) → (message members).Bounded (limit + 1))
    (hget : ∀ members v, Session.encodeParams env type params = .success members →
      ("params", v) ∈ members → (message members).get "params" = .ok v) :
    Network.ParamsSurvive text env type params message ↔ ParamsComeBack env type params := by
  cases type with
  | none =>
    obtain ⟨object, hparse, hrereads⟩ := htext _ (hb [] (by simp))
    refine iff_of_true ⟨[], object, rfl, ⟨hparse, ?_⟩, by simp⟩ (by simp [ParamsComeBack])
    exact hrereads.same (hb [] (by simp)).finite
  | some t =>
    have hwritable := hx t rfl
    have hencode : ∀ v, encode env t params = .success v →
        Session.encodeParams env (some t) params = .success [("params", v)] := fun v hv =>
      Outcome.andThen_eq_success.mpr ⟨v, hv, rfl⟩
    have hsurvives := survives_iff htext hwritable.hasType
      (fun v => message [("params", v)]) "params"
      (fun v hv => hb _ (by simpa using hwritable.bounded hv))
      fun v hv => hget _ v (hencode v hv) (List.mem_singleton_self _)
    simp only [ParamsComeBack, Option.some.injEq, forall_eq']
    rw [← hsurvives]
    constructor
    · intro h
      obtain ⟨members, object, he, hr, hd⟩ := h
      obtain ⟨v, hv, hmembers⟩ := Outcome.andThen_eq_success.mp he
      cases hmembers
      exact ⟨v, object, hv, hr, fun w hw => hd t w rfl hw⟩
    · intro h
      obtain ⟨v, object, hv, hr, hd⟩ := h
      refine ⟨_, object, hencode v hv, hr, fun u w hu hw => ?_⟩
      cases hu
      exact hd w hw

theorem scalar_bounded : (∀ i, (Value.intValue i).Bounded limit) ∧
    ∀ s, (Value.stringValue s).Bounded limit :=
  ⟨fun _ => ⟨trivial, trivial, Nat.zero_le _⟩, fun _ => ⟨trivial, trivial, Nat.zero_le _⟩⟩

theorem responseMessage_bounded (id : Int64) {member : Member} (h : member.2.Bounded limit) :
    (Session.responseMessage id member).Bounded (limit + 1) := by
  refine Json.Builder.object_bounded fun m hm => ?_
  simp only [List.mem_cons, List.not_mem_nil, or_false] at hm
  rcases hm with rfl | rfl | rfl
  · exact scalar_bounded.1 _
  · exact scalar_bounded.2 _
  · exact h

theorem replySurvives_iff (htext : text.Keeps (limit + 1)) {type : RequestType} {reply : Reply}
    (hx : ReplyWritable (limit + 1) env type reply) (id : Int64) :
    Network.ReplySurvives text env id type reply ↔ ReplyComesBack env type reply := by
  cases reply with
  | success x =>
    have hsurvives := survives_iff htext (Writable.hasType hx)
      (fun v => Session.responseMessage id ("result", v)) "result"
      (fun v hv => responseMessage_bounded id (Writable.bounded hx hv))
      fun v _ => (Session.get_responseMessage id (.inl rfl)).2
    rw [ReplyComesBack, ← hsurvives]
    constructor
    · intro h
      obtain ⟨member, object, he, hr, hd⟩ := h
      obtain ⟨v, hv, hmember⟩ := Outcome.andThen_eq_success.mp he
      cases hmember
      exact ⟨v, object, hv, hr, hd⟩
    · intro h
      obtain ⟨v, object, hv, hr, hd⟩ := h
      exact ⟨_, object, Outcome.andThen_eq_success.mpr ⟨v, hv, rfl⟩, hr, hd⟩
  | failure x =>
    obtain ⟨t, ht, hx⟩ := hx
    have hsurvives := survives_iff htext hx.hasType
      (fun v => Session.responseMessage id ("error", v)) "error"
      (fun v hv => responseMessage_bounded id (hx.bounded hv))
      fun v _ => (Session.get_responseMessage id (.inr rfl)).2
    simp only [ReplyComesBack, ht, Option.some.injEq, forall_eq']
    rw [← hsurvives]
    constructor
    · intro h
      obtain ⟨member, object, he, hr, hd⟩ := h
      simp only [Session.encodeReply, ht] at he
      obtain ⟨v, hv, hmember⟩ := Outcome.andThen_eq_success.mp he
      cases hmember
      exact ⟨v, object, hv, hr, fun w hw => hd t w ht hw⟩
    · intro h
      obtain ⟨v, object, hv, hr, hd⟩ := h
      refine ⟨("error", v), object, ?_, hr, fun u w hu hw => ?_⟩
      · simp only [Session.encodeReply, ht]
        exact Outcome.andThen_eq_success.mpr ⟨v, hv, rfl⟩
      · cases ht.symm.trans hu
        exact hd w hw

section Kinds

variable {params : LspValue}

theorem requestSurvives_iff (htext : text.Keeps (limit + 1)) {type : RequestType}
    (hx : ParamsWritable (limit + 1) env type.params params) (id : Int64) :
    Network.ParamsSurvive text env type.params params (Session.requestMessage id type.method) ↔
      ParamsComeBack env type.params params := by
  refine paramsSurvive_iff htext hx (fun members hm => ?_)
    fun members v he => (Session.get_requestMessage he).2.2 v
  refine Json.Builder.object_bounded fun m hmem => ?_
  simp only [List.mem_append, List.mem_cons, List.not_mem_nil, or_false] at hmem
  rcases hmem with (rfl | rfl | rfl) | hmem
  · exact scalar_bounded.2 _
  · exact scalar_bounded.1 _
  · exact scalar_bounded.2 _
  · exact hm m hmem

theorem notificationSurvives_iff (htext : text.Keeps (limit + 1)) {type : NotificationType}
    (hx : ParamsWritable (limit + 1) env type.params params) :
    Network.ParamsSurvive text env type.params params (Session.notificationMessage type.method) ↔
      ParamsComeBack env type.params params := by
  refine paramsSurvive_iff htext hx (fun members hm => ?_)
    fun members v he => (Session.get_notificationMessage he).2.2 v
  refine Json.Builder.object_bounded fun m hmem => ?_
  simp only [List.mem_append, List.mem_cons, List.not_mem_nil, or_false] at hmem
  rcases hmem with (rfl | rfl) | hmem
  · exact scalar_bounded.2 _
  · exact scalar_bounded.2 _
  · exact hm m hmem

end Kinds

end Messages

/-- Over texts that keep what is written, a message that is sent with values of its types is read
as what it was sent for if and only if its values come back from the codec. -/
theorem messages_survive_iff (htext : text.Keeps limit) (hlimit : 0 < limit) :
    (∀ (type : RequestType) id params, ParamsWritable limit env type.params params →
      (Network.ParamsSurvive text env type.params params
        (Session.requestMessage id type.method) ↔ ParamsComeBack env type.params params)) ∧
    (∀ (type : NotificationType) params, ParamsWritable limit env type.params params →
      (Network.ParamsSurvive text env type.params params
        (Session.notificationMessage type.method) ↔ ParamsComeBack env type.params params)) ∧
    ∀ (type : RequestType) id reply, ReplyWritable limit env type reply →
      (Network.ReplySurvives text env id type reply ↔ ReplyComesBack env type reply) := by
  obtain ⟨n, rfl⟩ : ∃ n, limit = n + 1 := ⟨limit - 1, by omega⟩
  exact ⟨fun _ id _ hx => requestSurvives_iff htext hx id,
    fun _ _ hx => notificationSurvives_iff htext hx,
    fun _ id _ hx => replySurvives_iff htext hx id⟩

namespace Network

/-- What two sides do that are used with values of their types: like what the network allows, but
of what is sent it is only known that it can be written and that its types bring values back. -/
def AllowsValues (text : JsonText) (env : Declarations) (limit : ℕ) (n : Network) (side : Side) :
    Session.Operation → Prop
  | .sendRequest type params => HasRequestHandler (n.world side.peer) type ∧
      ParamsWritable limit env type.params params ∧ ParamsSendable env type.params params ∧
        (n.world side).allocatedIds.length + 1 < 2 ^ 63 - 1
  | .sendNotification type params => HasNotificationHandler (n.world side.peer) type ∧
      ParamsWritable limit env type.params params ∧ ParamsSendable env type.params params
  | op => n.Allows text env side op

/-- The steps of two sessions that are used with values of their types. -/
inductive ValueStep (text : JsonText) (env : Declarations) (limit : ℕ) : Network → Network → Prop
  | operate {n : Network} (side : Side) (op : Session.Operation) (ha : n.aborted = none)
      (hop : n.AllowsValues text env limit side op) :
      ValueStep text env limit n
        (n.settle side (.ofOperation (n.world side) op) ((op.program text env).run (n.world side)))
  | deliver {n : Network} (ps qs : List Packet) {p : Packet} (ha : n.aborted = none)
      (hp : n.wire = ps ++ p :: qs) :
      ValueStep text env limit n (settle { n with wire := ps ++ qs } p.receiver p.task.received
        (((Session.Operation.receive p.text).program text env).run (n.world p.receiver)))
  | reply {n : Network} (as bs : List Activity) {side : Side} {id : Int64} {type : RequestType}
      {params : LspValue} {callback : Callback} {given : Option LspValue}
      {next : Reply → Method Unit} (reply : Reply) (ha : n.aborted = none)
      (hactivity : n.activities =
        as ++ ⟨side, .serve id type params, ⟨.request callback given, next⟩⟩ :: bs)
      (hwritable : ReplyWritable limit env type reply) (hsendable : ReplySendable env type reply) :
      ValueStep text env limit n (settle { n with
          activities := as ++ bs, handled := ⟨side.peer, id, given, reply⟩ :: n.handled }
        side (.response id type params reply) ((next reply).run (n.world side)))
  | resume {n : Network} (as bs : List Activity) {a : Activity} (r : a.frame.call.Answer)
      (ha : n.aborted = none) (hactivity : n.activities = as ++ a :: bs)
      (hr : Reports a.frame.call r) :
      ValueStep text env limit n (settle { n with activities := as ++ bs } a.side a.task
        ((a.frame.next r).run (n.world a.side)))

end Network

/-- The message in flight conforms to what the metamodel says about its request or notification. -/
def Packet.Conforms (text : JsonText) (U : Unicode) (m : MetaModel) (p : Packet) : Prop :=
  match p.task with
  | .request id type _ => ∀ r, MetaModel.Request.Means U m r type → ∃ object,
      IsRequest text p.text object r.method id ∧ m.ParamsConform r.params object
  | .notification type _ => ∀ r, MetaModel.Notification.Means U m r type → ∃ object,
      IsNotification text p.text object r.method ∧ m.ParamsConform r.params object
  | .response id type _ _ => ∀ r, MetaModel.Request.Means U m r type → ∃ object,
      IsResponse text p.text object id ∧ r.ResponseConforms m object
  | _ => False

section Networks

open Network

theorem ParamsSendable.comeBack {type : Option LspType} {params : LspValue}
    (h : ParamsSendable env type params) : ParamsComeBack env type params := by
  intro t ht
  exact ⟨(h t ht).allSet, (h t ht).ready.faithful (h t ht).hasType .root (h t ht).allSet⟩

theorem ReplySendable.comesBack {type : RequestType} {reply : Reply}
    (h : ReplySendable env type reply) : ReplyComesBack env type reply := by
  have hvalue : ∀ {t x}, Sendable env t x → ComesBack env t x := fun h =>
    ⟨h.allSet, h.ready.faithful h.hasType .root h.allSet⟩
  cases reply with
  | success x => exact hvalue h
  | failure x => exact fun t ht => hvalue (h t ht)

/-- Over texts that keep what is written, what is sent survives. -/
theorem Network.ValueStep.step (htext : text.Keeps limit) (hlimit : 0 < limit) {n n' : Network}
    (h : ValueStep text env limit n n') : Step text env n n' := by
  obtain ⟨k, rfl⟩ : ∃ k, limit = k + 1 := ⟨limit - 1, by omega⟩
  cases h with
  | operate side op ha hop =>
    refine .operate side op ha ?_
    cases op with
    | sendRequest type params =>
      obtain ⟨hh, hw, hs, hl⟩ := hop
      exact ⟨hh, (requestSurvives_iff htext hw _).mpr hs.comeBack, hl⟩
    | sendNotification type params =>
      obtain ⟨hh, hw, hs⟩ := hop
      exact ⟨hh, (notificationSurvives_iff htext hw).mpr hs.comeBack⟩
    | _ => exact hop
  | deliver ps qs ha hp => exact .deliver ps qs ha hp
  | reply as bs reply ha hactivity hw hs =>
    exact .reply as bs reply ha hactivity ((replySurvives_iff htext hw _).mpr hs.comesBack)
  | resume as bs r ha hactivity hr => exact .resume as bs r ha hactivity hr

variable {U : Unicode} {m : MetaModel}

/-- What can be read as what it was sent for conforms to the metamodel. -/
theorem Packet.Legible.conforms (hparse : text.WellFormed) (hu : m.DeclaredOnce)
    (hm : MetaModel.Declares U m env) {p : Packet} (h : p.Legible text env) :
    p.Conforms text U m := by
  obtain ⟨receiver, task, json⟩ := p
  cases task with
  | request id type params =>
    intro r hr
    obtain ⟨object, ho, hd⟩ := h
    refine ⟨object, hr.method ▸ ho, ?_⟩
    exact (exists_decodeParams_iff hu hm hr.params (hparse _ _ ho.parse)).mp ⟨_, hd⟩
  | notification type params =>
    intro r hr
    obtain ⟨object, ho, hd⟩ := h
    refine ⟨object, hr.method ▸ ho, ?_⟩
    exact (exists_decodeParams_iff hu hm hr.params (hparse _ _ ho.parse)).mp ⟨_, hd⟩
  | response id type params reply =>
    intro r hr
    obtain ⟨object, ho, hd⟩ := h
    refine ⟨object, ho, ?_⟩
    exact (exists_readResponse_iff hu hm hr (hparse _ _ ho.parse) 0).mp ⟨_, hd 0⟩
  | serve => exact h
  | other => exact h

/-- Two sessions that are used with values of their types understand each other: whatever the order
of their steps, the values survive, and every message in flight conforms to the metamodel and is
accepted. -/
theorem values_understood (htext : text.Keeps limit) (hlimit : 0 < limit)
    (hparse : text.WellFormed) (hu : m.DeclaredOnce) (hm : MetaModel.Declares U m env)
    {sender : Side → Callback} {n : Network}
    (h : Relation.ReflTransGen (ValueStep text env limit) (Network.initial sender) n) :
    Reachable text env sender n ∧ n.aborted = none ∧
      ∀ p ∈ n.wire, p.Conforms text U m ∧ p.Accepted text env (n.world p.receiver) := by
  have hreach : Reachable text env sender n :=
    Relation.ReflTransGen.mono (fun _ _ hs => ValueStep.step htext hlimit hs) _ _ h
  have hn := hreach.inv
  exact ⟨hreach, hn.aborted, fun p hp => ⟨(hn.legible p hp).conforms hparse hu hm, hn.accepted hp⟩⟩

end Networks

section Texts

open Session (shutdownText)

theorem countable_string : Countable String := by
  have hchar : Countable Char :=
    Function.Injective.countable (f := Char.toNat) fun _ _ h => Char.toNat_inj.mp h
  exact Function.Injective.countable (f := String.toList) fun _ _ h => String.toList_injective h

theorem countable_scalars : Set.Countable {v : Value | v.depth = 0} := by
  have hint : Countable Int64 :=
    Function.Injective.countable (f := Int64.toInt) fun _ _ h => Int64.toInt_inj.mp h
  have huint : Countable UInt64 :=
    Function.Injective.countable (f := UInt64.toNat) fun _ _ h => UInt64.toNat_inj.mp h
  have hreal : Countable Json.F64 := by
    refine Function.Injective.countable (f := fun d : Json.F64 => d.bits.toNat) ?_
    intro d d' h
    cases d
    cases d'
    exact congrArg _ (BitVec.toNat_inj.mp h)
  have hstring := countable_string
  refine Set.Countable.mono ?_ (((((Set.countable_singleton Value.nullValue).union
    (Set.countable_range Value.intValue)).union (Set.countable_range Value.uintValue)).union
    (Set.countable_range Value.realValue)).union (Set.countable_range Value.stringValue) |>.union
    (Set.countable_range Value.booleanValue))
  intro v hv
  cases v with
  | arrayValue es => cases hv
  | objectValue ms => cases hv
  | _ => simp

theorem countable_depth (n : ℕ) : Set.Countable {v : Value | v.depth ≤ n} := by
  induction n with
  | zero => simpa using countable_scalars
  | succ n ih =>
    have hlower : Countable {v : Value // v.depth ≤ n} := ih
    have hstring := countable_string
    have harray := Set.countable_range fun es : List {v : Value // v.depth ≤ n} =>
      Value.arrayValue (es.map Subtype.val)
    have hobject := Set.countable_range fun ms : List (String × {v : Value // v.depth ≤ n}) =>
      Value.objectValue (ms.map fun m => (m.1, m.2.val))
    refine ((countable_scalars.union harray).union hobject).mono fun v hv => ?_
    cases v with
    | arrayValue es =>
      have hes : ∀ e ∈ es, e.depth ≤ n := fun e he =>
        (Lsp.depth_le_depthElements he).trans (Nat.le_of_succ_le_succ hv)
      refine .inl (.inr ⟨es.pmap (fun e he => ⟨e, he⟩) hes, ?_⟩)
      simp [List.map_pmap]
    | objectValue ms =>
      have hms : ∀ m ∈ ms, m.2.depth ≤ n := fun m hm =>
        (Lsp.depth_le_depthMembers (n := m.1) hm).trans (Nat.le_of_succ_le_succ hv)
      refine .inr ⟨ms.pmap (fun m hm => (m.1, ⟨m.2, hm⟩)) hms, ?_⟩
      simp [List.map_pmap]
    | _ => exact .inl (.inl rfl)

theorem countable_value : Countable Value := by
  refine Set.countable_univ_iff.mp ((Set.countable_iUnion countable_depth).mono fun v _ => ?_)
  exact Set.mem_iUnion.mpr ⟨v.depth, Nat.le_refl _⟩

theorem Json.Value.Rereads.refl (v : Value) : v.Rereads v := by
  have hzip : ∀ {α : Type} {as : List α} {p : α × α}, p ∈ as.zip as → p.1 = p.2 := by
    intro α as p hp
    obtain ⟨i, hi⟩ := List.mem_iff_getElem?.mp hp
    obtain ⟨h, h'⟩ := List.getElem?_zip_eq_some.mp hi
    exact Option.some.inj (h.symm.trans h')
  induction hn : v.depth using Nat.strong_induction_on generalizing v with
  | _ n ih =>
    cases v with
    | nullValue => exact .null
    | intValue i => exact .integer rfl rfl
    | uintValue u => exact .integer rfl rfl
    | realValue d => exact .real d
    | stringValue s => exact .string s
    | booleanValue b => exact .boolean b
    | arrayValue es =>
      refine .array rfl fun p hp => ?_
      have hle := Lsp.depth_le_depthElements (List.of_mem_zip hp).1
      rw [← hzip hp]
      exact ih _ (hn ▸ Nat.lt_succ_of_le hle) p.1 rfl
    | objectValue ms =>
      refine .object rfl fun p hp => ?_
      have hle := Lsp.depth_le_depthMembers (n := p.1.1) (List.of_mem_zip hp).1
      rw [← hzip hp]
      exact ih _ (hn ▸ Nat.lt_succ_of_le hle) p.1.2 rfl

open Classical in
/-- A text that keeps every value, and that writes the messages of `shutdown` as the library. -/
theorem exists_keeps : ∃ text : JsonText, (∀ limit, text.Keeps limit) ∧ text.WellFormed ∧
    ∀ v, shutdownText.parse (shutdownText.write v) = .ok v →
      text.write v = shutdownText.write v := by
  obtain ⟨code, hcode⟩ := countable_value.exists_injective_nat
  -- the other values have texts of their own, which begin with another character
  let mark : Value → String := fun v => String.ofList (List.replicate (code v + 1) '#')
  have hmark : ∀ {v w}, mark v = mark w → v = w := by
    intro v w h
    have hlength := congrArg (fun s : String => s.toList.length) h
    simp only [mark, String.toList_ofList, List.length_replicate, Nat.add_right_cancel_iff]
      at hlength
    exact hcode hlength
  have hlibrary : ∀ v w, mark v ≠ shutdownText.write w := by
    intro v w h
    have hhead := congrArg (fun s : String => s.toList.head?) h
    simp only [mark, String.toList_ofList, List.replicate_succ, List.head?_cons] at hhead
    unfold shutdownText at hhead
    dsimp only at hhead
    split at hhead
    · revert hhead
      decide
    · revert hhead
      decide
  let text : JsonText := {
    write := fun v =>
      if shutdownText.parse (shutdownText.write v) = .ok v then shutdownText.write v else mark v
    parse := fun json =>
      if h : ∃ v : Value, v.WellFormed ∧ mark v = json then .ok h.choose
      else shutdownText.parse json }
  refine ⟨text, fun limit v hv => ⟨v, ?_, .refl v⟩, fun json object hparse => ?_, fun v hv => ?_⟩
  · by_cases hread : shutdownText.parse (shutdownText.write v) = .ok v
    · have hn : ¬ ∃ w : Value, w.WellFormed ∧ mark w = shutdownText.write v := by
        intro hw
        obtain ⟨w, -, hw⟩ := hw
        exact hlibrary w v hw
      simp only [text, hread, if_true, hn, dite_false]
    · have hw : ∃ w : Value, w.WellFormed ∧ mark w = mark v := ⟨v, hv.wellFormed, rfl⟩
      simp only [text, hread, if_false, hw, dite_true]
      exact congrArg _ (hmark hw.choose_spec.2)
  · simp only [text] at hparse
    split at hparse
    · cases hparse
      exact (Exists.choose_spec (p := fun v : Value => v.WellFormed ∧ mark v = json) ‹_›).1
    · exact shutdownText_wellFormed json object hparse
  · simp only [text, hv, if_true]

end Texts

section Lifecycle

open Session (shutdown)
open Resolver (asciiTables lifecycleModel lifecycleModel_declares)

/-- The messages of `shutdown` survive. -/
theorem messages_survive_iff_shutdown : ∃ text : JsonText,
    text.write (Session.requestMessage 1 "shutdown" []) = Session.shutdownRequest ∧
      Network.ParamsSurvive text [] none .null (Session.requestMessage 1 "shutdown") ∧
        Network.ReplySurvives text [] 1 shutdown (.success .null) := by
  obtain ⟨text, hkeeps, -, hwrite⟩ := exists_keeps
  obtain ⟨hrequest, -, hreply⟩ := @messages_survive_iff text [] 2 (hkeeps 2) (by decide)
  refine ⟨text, hwrite _ rfl, (hrequest shutdown 1 .null ?_).mpr ?_,
    (hreply shutdown 1 _ ?_).mpr ?_⟩
  · intro t ht
    cases ht
  · intro t ht
    cases ht
  · exact ⟨.null, fun d hd => (by cases hd), by decide⟩
  · exact ⟨trivial, .null⟩

/-- The request of a client is in flight to a server that has a handler for it. -/
theorem values_understood_shutdown : ∃ (text : JsonText) (n : Network) (p : Packet),
    n.wire = [p] ∧ p.text = Session.shutdownRequest ∧
      p.Conforms text asciiTables lifecycleModel ∧ p.Accepted text [] (n.world .server) := by
  obtain ⟨text, hkeeps, hparse, hwrite⟩ := exists_keeps
  have hids : 1 < 2 ^ 63 - 1 := by decide
  have hreach : Relation.ReflTransGen (Network.ValueStep text [] 2)
      (Network.initial fun _ => 0) _ :=
    .tail (.tail .refl
      (.operate .server (.registerRequest shutdown 1) rfl (fun _ h => by cases h)))
      (.operate .client (.sendRequest shutdown .null) rfl
        ⟨⟨_, rfl, rfl⟩, fun _ h => (by cases h), fun _ h => (by cases h), hids⟩)
  obtain ⟨-, -, hwire⟩ := values_understood (hkeeps 2) (by decide) hparse
    lifecycleModel_declaredOnce lifecycleModel_declares hreach
  exact ⟨text, _, _, rfl, hwrite (Session.requestMessage 1 "shutdown" []) rfl,
    hwire _ (List.mem_singleton_self _)⟩

end Lifecycle

end Langsvr
