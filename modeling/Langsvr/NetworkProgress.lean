import Langsvr.NetworkSteps
import Langsvr.RequestCorrelation

/-!
# The progress of two sessions

No request gets lost or doubled: it is answered, or it is under way exactly once. A request
takes at most six steps after it is sent, so the sessions come to rest when they are no
longer used, and then every request is answered.
-/

namespace Langsvr

open Json (Value)
open Lsp (LspValue Declarations)
open Session (Operation)
open Program (CallsAtMost)

variable {text : JsonText} {env : Declarations}

/-- How many steps may follow until the message has had its effect. -/
def Packet.work (p : Packet) : ℕ :=
  match p.task with
  | .request .. => 5
  | .notification .. => 2
  | _ => 1

def Activity.work (a : Activity) : ℕ :=
  match a.task, a.frame.call with
  | .serve .., _ => 4
  | .response .., .sender .. => 2
  | _, _ => 1

def Session.Operation.work : Operation → ℕ
  | .sendRequest .. => 6
  | .sendNotification .. => 3
  | _ => 0

theorem Activity.work_pos (a : Activity) : 1 ≤ a.work := by
  unfold Activity.work
  split <;> omega

theorem Activity.work_le_two (a : Activity) (h : a.token = none) : a.work ≤ 2 := by
  obtain ⟨side, task, ⟨c, next⟩⟩ := a
  cases task with
  | serve => cases h
  | response => cases c <;> simp [Activity.work]
  | _ => exact Nat.le_succ 1

namespace Network

/-- How many steps may follow until nothing is left to do. -/
def work (n : Network) : ℕ :=
  (n.wire.map Packet.work).sum + (n.activities.map Activity.work).sum

/-- What is counted in a network: each request that is not answered is under way, each
handler that was taken out has set its promise, and an activity that is not a request
handler makes no more calls than its work says. -/
structure Accounted (n : Network) : Prop where
  underway : ∀ side id promise type params message,
    .issued id promise type params message ∈ (n.world side).history →
      promise ∉ (n.world side).invokedPromises → (side, id) ∈ n.tokens.map Token.key
  settled : ∀ side, ∀ promise ∈ (n.world side).invokedPromises,
    promise ∈ (n.world side).settledPromises
  calls : ∀ a ∈ n.activities, a.token = none → ∀ r, CallsAtMost (a.work - 1) (a.frame.next r)

section Accounts

variable {n m : Network}

theorem Accounted.of_history (h : n.Accounted)
    (hw : ∀ side, (m.world side).history = (n.world side).history)
    (ht : ∀ key ∈ n.tokens.map Token.key, key ∈ m.tokens.map Token.key)
    (ha : ∀ a ∈ m.activities, a ∈ n.activities ∨
      (a.token = none → ∀ r, CallsAtMost (a.work - 1) (a.frame.next r))) : m.Accounted where
  underway side id promise type params message hi hp := by
    simp only [World.invokedPromises, hw] at hi hp
    exact ht _ (h.underway side id promise type params message hi hp)
  settled side promise hp := by
    simp only [World.invokedPromises, World.settledPromises, hw] at hp ⊢
    exact h.settled side promise hp
  calls a hmem := (ha a hmem).elim (h.calls a) id

theorem Accounted.operated {op : Operation} (h : n.Accounted) (ho : Operated n op m) :
    m.Accounted := by
  cases ho with
  | @configured op side w hh hp =>
    refine h.of_history (fun s => ?_) (fun key hkey => hkey) fun a ha => Or.inl ha
    by_cases hs : s = side
    · subst hs
      simpa using hh
    · simp [hs]
  | requested side type params message sender msg hnext =>
    constructor
    case underway =>
      intro s id promise type' params' message' hi hp
      suffices hmem : (s, id) ∈ (side, (n.world side).session.nextRequestId) ::
          n.tokens.map Token.key by
        simpa [tokens, Packet.token, Activity.token, Token.key, List.filterMap_cons] using hmem
      by_cases hs : s = side
      · subst hs
        simp only [Function.update_self] at hi hp
        rcases List.mem_cons.mp hi with hi | hi
        · cases hi
          exact List.mem_cons_self ..
        · have hi := List.mem_of_ne_of_mem (by simp) hi
          exact List.mem_cons_of_mem _ (h.underway s id promise _ _ _ hi hp)
      · simp only [Function.update_of_ne hs] at hi hp
        exact List.mem_cons_of_mem _ (h.underway s id promise _ _ _ hi hp)
    case settled =>
      intro s promise hp
      by_cases hs : s = side
      · subst hs
        simp only [Function.update_self] at hp ⊢
        exact h.settled s promise hp
      · simp only [Function.update_of_ne hs] at hp ⊢
        exact h.settled s promise hp
    case calls =>
      intro a ha
      rcases List.mem_cons.mp ha with rfl | ha
      · exact fun _ => hnext
      · exact h.calls a ha
  | notified side type params sender msg hnext =>
    refine h.of_history (fun s => rfl) (fun key hkey => ?_) fun a ha => ?_
    · simpa [tokens, Packet.token, Activity.token, List.filterMap_cons] using hkey
    · rcases List.mem_cons.mp ha with rfl | ha
      · exact Or.inr fun _ => hnext
      · exact Or.inl ha

/-- A packet or an activity that ends, or that begins, with the request that it carries. -/
private theorem tokens_perm_packet {ps qs : List Packet} {p : Packet}
    (hn : n.wire = ps ++ p :: qs) :
    n.tokens.Perm (p.token.toList ++ tokens { n with wire := ps ++ qs }) := by
  cases ht : p.token with
  | none => exact .of_eq (tokens_of_other hn ht)
  | some t => exact tokens_of_packet hn ht

private theorem tokens_perm_activity {as bs : List Activity} {a : Activity}
    (hn : n.activities = as ++ a :: bs) :
    n.tokens.Perm (a.token.toList ++ tokens { n with activities := as ++ bs }) := by
  cases ht : a.token with
  | none => exact .of_eq (by simp [tokens, hn, List.filterMap_cons_none ht])
  | some t =>
    simp only [tokens, hn, List.filterMap_append, List.filterMap_cons, ht, Option.toList_some,
      List.cons_append, List.nil_append, ← List.append_assoc]
    exact List.perm_middle

private theorem tokens_perm_sent {qs : List Packet} {p : Packet} (hn : n.wire = p :: qs) :
    n.tokens.Perm (p.token.toList ++ tokens { n with wire := qs }) :=
  @tokens_perm_packet n [] qs p hn

private theorem tokens_perm_started {bs : List Activity} {a : Activity}
    (hn : n.activities = a :: bs) :
    n.tokens.Perm (a.token.toList ++ tokens { n with activities := bs }) :=
  @tokens_perm_activity n [] bs a hn

/-- One packet or activity is followed by one that carries the same request. -/
private theorem keys_subset {k : Network} {t u : Option Token}
    (hn : n.tokens.Perm (t.toList ++ k.tokens)) (hm : m.tokens.Perm (u.toList ++ k.tokens))
    (htu : t.map Token.key = u.map Token.key) :
    ∀ key ∈ n.tokens.map Token.key, key ∈ m.tokens.map Token.key := by
  intro key hkey
  have hkey := (hn.map Token.key).mem_iff.mp hkey
  apply (hm.map Token.key).mem_iff.mpr
  rw [List.map_append, ← Option.toList_map] at hkey ⊢
  rwa [← htu]

theorem Accounted.advanced (h : n.Accounted) (hn : n.Inv text env) (ha : Advanced n m) :
    m.Accounted := by
  cases ha with
  | @served ps qs receiver id type params msg hwire callback next =>
    refine h.of_history (fun s => rfl) ?_ fun a ha => ?_
    · exact keys_subset (tokens_perm_packet hwire) (tokens_perm_started rfl) rfl
    · rcases List.mem_cons.mp ha with rfl | ha
      · exact Or.inr fun ht => by cases ht
      · exact Or.inl ha
  | @noticed ps qs receiver type params msg hwire callback next hnext =>
    refine h.of_history (fun s => rfl) ?_ fun a ha => ?_
    · exact keys_subset (tokens_perm_packet hwire) (tokens_perm_started rfl) rfl
    · rcases List.mem_cons.mp ha with rfl | ha
      · exact Or.inr fun _ => hnext
      · exact Or.inl ha
  | @settled ps qs receiver id type params reply msg hwire promise message hissued handler hpromise
      response =>
    subst hpromise
    constructor
    case underway =>
      intro s id' promise type' params' message' hi hp
      have hmem : (s, id') ∈ n.tokens.map Token.key ∧ (s, id') ≠ (receiver, id) := by
        by_cases hs : s = receiver
        · subst hs
          simp only [Function.update_self] at hi hp
          have hi := List.mem_of_ne_of_mem (by simp) (List.mem_of_ne_of_mem (by simp) hi)
          have hne : promise ≠ handler.promise := by
            rintro rfl
            exact hp (List.mem_cons_self ..)
          have hwaits := h.underway s id' promise _ _ _ hi fun hinv =>
            hp (List.mem_cons_of_mem _ hinv)
          refine ⟨hwaits, ?_⟩
          -- with the id of the response, it would be the request that is answered
          rintro ⟨⟩
          cases (hn.consistent s).issued_unique hi hissued
          exact hne rfl
        · simp only [Function.update_of_ne hs] at hi hp
          exact ⟨h.underway s id' promise _ _ _ hi hp, by simp [hs]⟩
      have hkey := ((tokens_perm_packet hwire).map Token.key).mem_iff.mp hmem.1
      exact List.mem_of_ne_of_mem hmem.2 hkey
    case settled =>
      intro s promise hp
      by_cases hs : s = receiver
      · subst hs
        simp only [Function.update_self] at hp ⊢
        rcases List.mem_cons.mp hp with rfl | hp
        · exact List.mem_cons_self ..
        · exact List.mem_cons_of_mem _ (h.settled s promise hp)
      · simp only [Function.update_of_ne hs] at hp ⊢
        exact h.settled s promise hp
    case calls => exact h.calls
  | @replied as bs side id type params frame hactivity reply sender msg next hnext =>
    refine h.of_history (fun s => rfl) ?_ fun a ha => ?_
    · exact keys_subset (tokens_perm_activity hactivity) (tokens_perm_sent rfl) rfl
    · rcases List.mem_cons.mp ha with rfl | ha
      · exact Or.inr fun _ => hnext
      · rw [hactivity]
        exact Or.inl (((List.sublist_cons_self _ bs).append_left as).subset ha)
  | @returned as bs a hactivity htoken =>
    refine h.of_history (fun s => rfl) ?_ fun b hb => ?_
    · exact keys_subset (tokens_perm_activity hactivity) (u := none) (.refl _) (by rw [htoken])
    · rw [hactivity]
      exact Or.inl (((List.sublist_cons_self a bs).append_left as).subset hb)
  | @posted as bs a hactivity htoken r callback next hrun =>
    refine h.of_history (fun s => rfl) ?_ fun b hb => ?_
    · exact keys_subset (tokens_perm_activity hactivity) (tokens_perm_started rfl) rfl
    · rcases List.mem_cons.mp hb with rfl | hb
      · right
        intro _ r'
        obtain ⟨l, hl, hnext⟩ := (h.calls a (by simp [hactivity]) htoken r).of_run hrun
        have hwork := a.work_le_two htoken
        exact (hnext r').mono (by omega)
      · rw [hactivity]
        exact Or.inl (((List.sublist_cons_self a bs).append_left as).subset hb)

theorem Accounted.step (h : n.Accounted) (hn : n.Inv text env) (hs : Step text env n m) :
    m.Accounted := by
  rcases step_iff.mp hs with ⟨op, ho⟩ | ha
  · exact h.operated (hn.operated ho)
  · exact h.advanced hn (hn.advanced ha)

theorem Accounted.initial (sender : Side → Callback) : (initial sender).Accounted where
  underway := by simp [Network.initial]
  settled := by simp [Network.initial, World.invokedPromises]
  calls := by simp [Network.initial]

theorem Reachable.accounted {sender : Side → Callback} (h : Reachable text env sender n) :
    n.Accounted := by
  induction h with
  | refl => exact .initial sender
  | tail hr hs ih => exact ih.step (Reachable.inv hr) hs

end Accounts

def Unanswered (n : Network) (side : Side) (id : Int64) (type : RequestType) (params : LspValue) :
    Prop :=
  ∃ promise message, .issued id promise type params message ∈ (n.world side).history ∧
    (n.world side).promises[promise]? = some none

section Progress

variable {n m : Network} {sender : Side → Callback}

theorem set_of_invoked (hn : n.Inv text env) (ha : n.Accounted) {side : Side} {promise : ℕ}
    (hp : promise ∈ (n.world side).invokedPromises) :
    ∃ value, (n.world side).promises[promise]? = some (some value) := by
  obtain ⟨value, hv⟩ := World.exists_settled (ha.settled side promise hp)
  exact ⟨value, ((hn.consistent side).settled promise value).mp hv⟩

/-- In two sessions that send what the other one reads, the requests without an answer are
the ones that are under way, each of them once: no request is lost and none is doubled. -/
theorem requests_conserved (h : Reachable text env sender n) :
    (n.tokens.map Token.key).Nodup ∧ ∀ side id type params,
      n.Unanswered side id type params ↔
        ∃ reply, ⟨side, id, type, params, reply⟩ ∈ n.tokens := by
  have hn := h.inv
  have ha := Reachable.accounted h
  refine ⟨hn.ledger.nodup, fun side id type params => ⟨fun hu => ?_, fun ht => ?_⟩⟩
  · obtain ⟨promise, message, hi, hnone⟩ := hu
    have hinv : promise ∉ (n.world side).invokedPromises := fun hp => by
      obtain ⟨value, hv⟩ := set_of_invoked hn ha hp
      cases hnone.symm.trans hv
    have hwaits := ha.underway side id promise type params message hi hinv
    obtain ⟨t, ht, hkey⟩ := List.mem_map.mp hwaits
    obtain ⟨promise', message', hi', -⟩ := hn.ledger.awaited t ht
    obtain ⟨rfl, rfl⟩ := Prod.mk.inj hkey
    cases (hn.consistent t.issuer).issued_unique hi hi'
    exact ⟨t.reply, ht⟩
  · obtain ⟨reply, ht⟩ := ht
    obtain ⟨promise, message, hi, hinv⟩ := hn.ledger.awaited _ ht
    have hkept := (hn.consistent side).kept id promise type params message hi hinv
    exact ⟨promise, message, hi, (hn.consistent side).unset hkept⟩

theorem work_operated {op : Operation} (ho : Operated n op m) : m.work ≤ n.work + op.work := by
  cases ho with
  | configured side hh hp => exact Nat.le_add_right _ _
  | requested side type params message sender msg hnext =>
    simp only [work, List.map_cons, List.sum_cons, Packet.work, Activity.work,
      Session.Operation.work]
    omega
  | notified side type params sender msg hnext =>
    simp only [work, List.map_cons, List.sum_cons, Packet.work, Activity.work,
      Session.Operation.work]
    omega

/-- A step that begins no operation leaves less to do. -/
theorem work_advanced (h : n.Accounted) (ha : Advanced n m) : m.work < n.work := by
  cases ha with
  | served ps qs hwire callback next =>
    simp only [work, hwire, List.map_append, List.map_cons, List.sum_append, List.sum_cons,
      Packet.work, Activity.work]
    omega
  | noticed ps qs hwire callback hnext =>
    simp only [work, hwire, List.map_append, List.map_cons, List.sum_append, List.sum_cons,
      Packet.work, Activity.work]
    omega
  | settled ps qs hwire hissued handler hpromise response =>
    simp only [work, hwire, List.map_append, List.map_cons, List.sum_append, List.sum_cons,
      Packet.work]
    omega
  | replied as bs hactivity reply sender msg hnext =>
    simp only [work, hactivity, List.map_append, List.map_cons, List.sum_append, List.sum_cons,
      Packet.work, Activity.work]
    omega
  | @returned as bs a hactivity htoken =>
    have hpos := a.work_pos
    simp only [work, hactivity, List.map_append, List.map_cons, List.sum_append, List.sum_cons]
    omega
  | @posted as bs a hactivity htoken r callback next hrun =>
    -- the activity had a call left, and it has none now
    obtain ⟨l, hl, -⟩ := (h.calls a (by simp [hactivity]) htoken r).of_run hrun
    have hone : Activity.work ⟨a.side, a.task, ⟨.postSend callback, next⟩⟩ = 1 := by
      obtain ⟨side, task, frame⟩ := a
      cases task with
      | serve => cases htoken
      | _ => rfl
    simp only [work, hactivity, List.map_append, List.map_cons, List.sum_append, List.sum_cons,
      hone]
    omega

end Progress

/-- The use of a network: the operations that have begun, and how many other steps have
followed. -/
inductive Uses (text : JsonText) (env : Declarations) :
    List Operation → ℕ → Network → Network → Prop
  | refl (n : Network) : Uses text env [] 0 n n
  | operate {ops : List Operation} {k : ℕ} {n m u : Network} {op : Operation}
      (h : Uses text env ops k n m) (ho : Operate text env op m u) :
      Uses text env (op :: ops) k n u
  | advance {ops : List Operation} {k : ℕ} {n m u : Network} (h : Uses text env ops k n m)
      (ha : Advance text env m u) : Uses text env ops (k + 1) n u

/-- Nothing is in flight, and no method waits for a call. -/
def AtRest (n : Network) : Prop := n.wire = [] ∧ n.activities = []

section Uses

variable {sender : Side → Callback} {n m : Network} {ops : List Operation} {k : ℕ}

theorem Uses.reachable (h : Uses text env ops k n m) (hn : Reachable text env sender n) :
    Reachable text env sender m := by
  induction h with
  | refl => exact hn
  | operate _ ho ih => exact .tail (ih hn) ho.step
  | advance _ ha ih => exact .tail (ih hn) ha.step

theorem Uses.work_le (h : Uses text env ops k n m) (hn : Reachable text env sender n) :
    k + m.work ≤ n.work + (ops.map Operation.work).sum := by
  induction h with
  | refl n => simp
  | @operate ops k n m u op h ho ih =>
    have hm := h.reachable hn
    have hu := work_operated (hm.inv.operated ho)
    have hle := ih hn
    simp only [List.map_cons, List.sum_cons]
    omega
  | @advance ops k n m u h ha ih =>
    have hm := h.reachable hn
    have hu := work_advanced hm.accounted (hm.inv.advanced ha)
    have hle := ih hn
    omega

/-- However two sessions are used, at most six steps follow each request and three steps
follow each notification. No message leads to others without end. -/
theorem steps_bounded (h : Uses text env ops k (initial sender) m) :
    k ≤ (ops.map Operation.work).sum := by
  have hstart : Reachable text env sender (initial sender) := .refl
  have hle := h.work_le hstart
  have hzero : (initial sender).work = 0 := rfl
  omega

theorem Uses.issued (h : Uses text env [] k n m) (hn : Reachable text env sender n) {side : Side}
    {e : Event} (he : e ∈ (n.world side).history) : e ∈ (m.world side).history := by
  generalize hops : ([] : List Operation) = ops at h
  induction h with
  | refl => exact he
  | operate => cases hops
  | @advance ops k n m u h ha ih =>
    have hm := ih hn he hops
    cases (h.reachable hn).inv.advanced ha with
    | @settled ps qs receiver id type params reply msg hwire promise message hi handler hp
        response =>
      by_cases hs : side = receiver
      · subst hs
        simp only [Function.update_self]
        exact List.mem_cons_of_mem _ (List.mem_cons_of_mem _ hm)
      · simpa [hs] using hm
    | _ => exact hm

/-- Request handlers can return replies that survive for the requests without one. -/
def Answerable (text : JsonText) (env : Declarations) (n : Network) : Prop :=
  ∀ t ∈ n.tokens, t.reply = none → ∃ reply, ReplySurvives text env t.id t.type reply

theorem Answerable.advance (h : n.Answerable text env) (ha : Advanced n m) :
    m.Answerable text env := by
  have hold : ∀ {k : Network} {t u : Option Token}, n.tokens.Perm (t.toList ++ k.tokens) →
      m.tokens.Perm (u.toList ++ k.tokens) → (∀ v ∈ u, v.reply = none → v ∈ t) →
        m.Answerable text env := by
    intro k t u hn hm htu v hv hreply
    apply h v _ hreply
    apply hn.mem_iff.mpr
    rcases List.mem_append.mp (hm.mem_iff.mp hv) with hv | hv
    · exact List.mem_append_left _ (Option.mem_toList.mpr (htu v (Option.mem_toList.mp hv) hreply))
    · exact List.mem_append_right _ hv
  cases ha with
  | served ps qs hwire callback next =>
    exact hold (tokens_perm_packet hwire) (tokens_perm_started rfl) fun v hv _ => hv
  | noticed ps qs hwire callback hnext =>
    exact hold (tokens_perm_packet hwire) (tokens_perm_started rfl) fun v hv _ => hv
  | settled ps qs hwire hissued handler hpromise response =>
    exact hold (tokens_perm_packet hwire) (u := none) (.refl _) (by simp)
  | replied as bs hactivity reply sender msg hnext =>
    refine hold (tokens_perm_activity hactivity) (tokens_perm_sent rfl) ?_
    rintro v ⟨⟩ ⟨⟩
  | returned as bs hactivity htoken =>
    exact hold (tokens_perm_activity hactivity) (u := none) (.refl _) (by simp)
  | posted as bs hactivity htoken r hrun =>
    exact hold (tokens_perm_activity hactivity) (tokens_perm_started rfl) fun v hv _ => hv

/-- While something is in flight or waits, there is a step. -/
theorem advance_or_rest (hn : n.Inv text env) (h : n.Answerable text env) :
    (∃ m, Advance text env n m) ∨ n.AtRest := by
  cases hwire : n.wire with
  | cons p qs => exact Or.inl ⟨_, .deliver [] qs hn.aborted hwire⟩
  | nil =>
    cases hactivities : n.activities with
    | nil => exact Or.inr ⟨hwire, hactivities⟩
    | cons a bs =>
      left
      have hmem : a ∈ n.activities := by simp [hactivities]
      have hshaped := hn.shaped a hmem
      cases htoken : a.token with
      | none =>
        obtain ⟨hrequest, -⟩ := (Activity.shaped_iff htoken).mp hshaped
        obtain ⟨r, hr⟩ : ∃ r, Reports a.frame.call r := by
          obtain ⟨side, task, ⟨c, next⟩⟩ := a
          cases c with
          | sender sender msg => exact ⟨(.ok () : Result Unit), rfl⟩
          | request callback params => exact absurd rfl (hrequest callback params)
          | notification callback params => exact ⟨(.ok () : Result Unit), trivial⟩
          | postSend callback => exact ⟨(), trivial⟩
        exact ⟨_, .resume [] bs r hn.aborted hactivities hr⟩
      | some t =>
        obtain ⟨side, task, frame⟩ := a
        cases task with
        | serve id type params =>
          obtain ⟨callback, rfl⟩ := hshaped
          have ht : ⟨side.peer, id, type, params, none⟩ ∈ n.tokens :=
            List.mem_append_right _ (List.mem_filterMap.mpr ⟨_, hmem, rfl⟩)
          obtain ⟨reply, hs⟩ := h _ ht rfl
          exact ⟨_, .reply [] bs reply hn.aborted hactivities hs⟩
        | _ => cases htoken

theorem Uses.answerable (h : Uses text env [] k n m) (hn : Reachable text env sender n)
    (ha : n.Answerable text env) : m.Answerable text env := by
  generalize hops : ([] : List Operation) = ops at h
  induction h with
  | refl => exact ha
  | operate => cases hops
  | @advance ops k n m u h hm ih => exact (ih hn ha hops).advance ((h.reachable hn).inv.advanced hm)

/-- At rest every request is answered with what its handler has returned. -/
theorem answered_of_atRest (hm : Reachable text env sender m) (hrest : m.AtRest) {side : Side}
    {id : Int64} {promise : ℕ} {type : RequestType} {params : LspValue} {message : Value}
    (hi : .issued id promise type params message ∈ (m.world side).history) :
    ∃ value, (m.world side).promises[promise]? = some (some value) ∧
      ⟨side, id, given type.params params, value⟩ ∈ m.handled := by
  have hn := hm.inv
  have hinv : promise ∈ (m.world side).invokedPromises := by
    by_contra hinv
    have hkey := hm.accounted.underway side id promise type params message hi hinv
    simp [tokens, hrest.1, hrest.2] at hkey
  obtain ⟨value, hv⟩ := set_of_invoked hn hm.accounted hinv
  obtain ⟨id', type', params', message', hi', hk⟩ :=
    hn.ledger.settled side promise value (((hn.consistent side).settled promise value).mpr hv)
  cases (hn.consistent side).issued_unique_promise hi hi'
  exact ⟨value, hv, hk⟩

/-- Two sessions that are no longer used come to rest, in whatever order messages are delivered
and calls return, as long as request handlers return replies that survive. Then each request
is answered with what its handler has returned. -/
theorem comes_to_rest (h : Reachable text env sender n) (ha : n.Answerable text env) :
    (∃ k m, Uses text env [] k n m ∧ m.AtRest) ∧
      ∀ k m, Uses text env [] k n m → k ≤ n.work ∧ ((∃ u, Advance text env m u) ∨
        m.AtRest ∧ ∀ side id promise type params message,
          .issued id promise type params message ∈ (n.world side).history →
            ∃ value, (m.world side).promises[promise]? = some (some value) ∧
              ⟨side, id, given type.params params, value⟩ ∈ m.handled) := by
  constructor
  · suffices hrest : ∀ w k m, Uses text env [] k n m → m.work = w →
        ∃ k u, Uses text env [] k n u ∧ u.AtRest from hrest _ 0 n (.refl n) rfl
    intro w
    -- each step leaves less to do
    induction w using Nat.strongRecOn with
    | ind w ih =>
      intro k m hm hw
      have hreach := hm.reachable h
      rcases advance_or_rest hreach.inv (hm.answerable h ha) with ⟨u, hu⟩ | hrest
      · have hless := work_advanced hreach.accounted (hreach.inv.advanced hu)
        exact ih u.work (hw ▸ hless) (k + 1) u (hm.advance hu) rfl
      · exact ⟨k, m, hm, hrest⟩
  · intro k m hm
    have hreach := hm.reachable h
    have hle := hm.work_le h
    simp only [List.map_nil, List.sum_nil] at hle
    refine ⟨by omega, ?_⟩
    rcases advance_or_rest hreach.inv (hm.answerable h ha) with hstep | hrest
    · exact Or.inl hstep
    · exact Or.inr ⟨hrest, fun side id promise type params message hi =>
        answered_of_atRest hreach hrest (hm.issued h hi)⟩

end Uses

section Shutdown

open Session (shutdown shutdownText)

private theorem shutdown_sent : ∃ n : Network, Reachable shutdownText [] (fun _ => 0) n ∧
    n.tokens = [⟨.client, 1, shutdown, .null, none⟩] ∧ n.work = 6 :=
  ⟨_, .tail (.tail .refl
      (.operate .server (.registerRequest shutdown 1) rfl (fun _ h => by cases h)))
      (.operate .client (.sendRequest shutdown .null) rfl
        ⟨⟨_, rfl, rfl⟩, shutdown_params_survive, by decide⟩), rfl, rfl⟩

theorem requests_conserved_shutdown : ∃ n : Network,
    n.Unanswered .client 1 shutdown .null := by
  obtain ⟨n, hn, ht, -⟩ := shutdown_sent
  refine ⟨n, ((requests_conserved hn).2 .client 1 shutdown .null).mpr ⟨none, ?_⟩⟩
  rw [ht]
  exact List.mem_singleton_self _

theorem steps_bounded_shutdown : ∃ ops m, Uses shutdownText [] ops 3 (initial fun _ => 0) m ∧
    (m.world .client).promises = [some (.success .null)] ∧ 3 ≤ (ops.map Operation.work).sum := by
  have huses : Uses shutdownText [] [.sendRequest shutdown .null, .registerRequest shutdown 1] 3
      (initial fun _ => 0) _ :=
    .advance (.advance (.advance (.operate (.operate (.refl _)
      (.intro .server rfl (fun _ h => by cases h)))
      (.intro .client rfl ⟨⟨_, rfl, rfl⟩, shutdown_params_survive, by decide⟩))
      (.deliver [] [] rfl rfl))
      (.reply [] _ (.success .null) rfl rfl shutdown_reply_survives))
      (.deliver [] [] rfl rfl)
  exact ⟨_, _, huses, rfl, steps_bounded huses⟩

theorem comes_to_rest_shutdown : ∃ n : Network, n.work = 6 ∧
    ∃ k m, Uses shutdownText [] [] k n m ∧ m.AtRest := by
  obtain ⟨n, hn, ht, hw⟩ := shutdown_sent
  refine ⟨n, hw, (comes_to_rest hn fun t hmem hreply => ?_).1⟩
  rw [ht] at hmem
  obtain rfl := List.mem_singleton.mp hmem
  exact ⟨.success .null, shutdown_reply_survives⟩

end Shutdown

end Network

end Langsvr
