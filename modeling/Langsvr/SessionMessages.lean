import Langsvr.LspAnyPassThrough
import Langsvr.SessionModel

/-!
# The messages of a session

What a session reads from the messages that sessions write, also after a text has been
made of a message and has been parsed: the parsed value is the same up to the types in
which numbers are stored.
-/

namespace Langsvr

open Json (Value Member)
open OrderedEntries (lastWrite)

namespace Json

theorem Builder.get_object (ms : List Member) (n : String) :
    (Builder.object ms).get n = match lastWrite n ms with
      | some v => .ok v
      | none => .error ⟨"object has no field with name '" ++ n ++ "'"⟩ := by
  have hl : List.lookup n (OrderedEntries.assignAll [] ms) = lastWrite n ms := by
    rw [OrderedEntries.lookup_assignAll, List.lookup_nil, Option.or_none]
  cases h : lastWrite n ms with
  | none => simp only [Builder.object, Value.get, hl, h]
  | some v => simp only [Builder.object, Value.get, hl, h]

theorem Builder.has_object (ms : List Member) (n : String) :
    (Builder.object ms).has n = (lastWrite n ms).isSome := by
  simp only [Builder.object, Value.has, OrderedEntries.lookup_assignAll, List.lookup_nil,
    Option.or_none]

/-- An object of members with different names has exactly these members. -/
theorem Builder.object_members {ms : List Member} (hn : (OrderedEntries.keys ms).Nodup) :
    ∃ ns, Builder.object ms = .objectValue ns ∧ OrderedEntries.Ordered ns ∧
      ∀ m, m ∈ ns ↔ m ∈ ms := by
  have ho : OrderedEntries.Ordered (OrderedEntries.assignAll [] ms) :=
    OrderedEntries.Ordered.nil.assignAll ms
  refine ⟨_, rfl, ho, fun m => ?_⟩
  obtain ⟨n, v⟩ := m
  have hl : List.lookup n (OrderedEntries.assignAll [] ms) = lastWrite n ms := by
    rw [OrderedEntries.lookup_assignAll, List.lookup_nil, Option.or_none]
  constructor
  · intro hm
    exact OrderedEntries.mem_of_lastWrite (hl.symm.trans (ho.lookup_of_mem hm))
  · intro hm
    exact OrderedEntries.mem_of_lookup (hl.trans (OrderedEntries.lastWrite_of_mem_nodup hn hm))

namespace Value.Same

theorem string_eq {v w : Value} (h : v.Same w) {s : String} :
    v = .stringValue s ↔ w = .stringValue s := by
  cases h with
  | string t => exact Iff.rfl
  | number hv hw =>
    constructor
    · rintro rfl
      cases hv
    · rintro rfl
      cases hw
  | _ => simp

/-- A number in the range of an `Int64` reads as it in every stored form. -/
theorem i64 {w : Value} {i : Int64} (h : (Value.intValue i).Same w) : w.i64 = .ok i := by
  cases h with
  | number hv hw =>
    have hn : (i.toInt : ℚ) = _ := Option.some.inj hv
    have hlt := i.toInt_lt
    have hle := i.le_toInt
    have hread : w.isInt64 = true ∧ w.asInt64 = i := by
      cases w with
      | intValue j =>
        have hj : (j.toInt : ℚ) = i.toInt := (Option.some.inj hw).trans hn.symm
        exact ⟨rfl, Int64.toInt_inj.mp (by exact_mod_cast hj)⟩
      | uintValue u =>
        have hu : (u.toNat : ℤ) = i.toInt := by
          have hq : (u.toNat : ℚ) = i.toInt := (Option.some.inj hw).trans hn.symm
          exact_mod_cast hq
        refine ⟨?_, ?_⟩
        · simp only [Value.isInt64, decide_eq_true_eq]
          omega
        · rw [Value.asInt64, hu, Int64.ofInt_toInt]
      | realValue d =>
        have hd : d.value = some (i.toInt : ℚ) := hw.trans (congrArg some hn.symm)
        have hi : Value.realIntegral d = some i.toInt := by
          simp [Value.realIntegral, hd]
        refine ⟨?_, ?_⟩
        · simp only [Value.isInt64, hi, Option.any_some, Bool.and_eq_true, decide_eq_true_eq]
          omega
        · rw [Value.asInt64, hi, Option.getD_some, Int64.ofInt_toInt]
      | _ => cases hw
    rw [Value.i64, if_pos hread.1, hread.2]

theorem of_i64 {v : Value} {i : Int64} (h : v.i64 = .ok i) : v.Same (.intValue i) :=
  .number (number_of_i64 h) rfl

theorem lookup {ms ns : List Member} (hk : ms.map Prod.fst = ns.map Prod.fst)
    (hs : ∀ p ∈ ms.zip ns, Same p.1.2 p.2.2) (n : String) :
    Option.Rel Same (List.lookup n ms) (List.lookup n ns) := by
  induction ms generalizing ns with
  | nil =>
    cases ns with
    | nil => exact .none
    | cons k ns => cases hk
  | cons m ms ih =>
    cases ns with
    | nil => cases hk
    | cons k ns =>
      obtain ⟨i, v⟩ := m
      obtain ⟨j, w⟩ := k
      obtain ⟨rfl, hk'⟩ : i = j ∧ ms.map Prod.fst = ns.map Prod.fst := by simpa using hk
      have hvw : Same v w := hs ((i, v), (i, w)) (List.mem_cons_self ..)
      rw [OrderedEntries.lookup_cons, OrderedEntries.lookup_cons]
      by_cases hn : n = i
      · simpa [hn] using Option.Rel.some hvw
      · simpa [hn] using ih hk' fun p hp => hs p (List.mem_cons_of_mem _ hp)

private theorem get_rel {v w : Value} (h : v.Same w) (n : String) :
    (∃ m k, v.get n = .ok m ∧ w.get n = .ok k ∧ m.Same k) ∨
      ∃ f g, v.get n = .error f ∧ w.get n = .error g := by
  cases h with
  | @object ms ns hk hs =>
    have hl := Same.lookup hk hs n
    simp only [Value.get]
    generalize List.lookup n ms = a, List.lookup n ns = b at hl ⊢
    cases hl with
    | some hmk => exact Or.inl ⟨_, _, rfl, rfl, hmk⟩
    | none => exact Or.inr ⟨_, _, rfl, rfl⟩
  | number hv hw =>
    apply Or.inr
    cases v <;> cases w <;> simp [Value.number] at hv hw <;> exact ⟨_, _, rfl, rfl⟩
  | _ => exact Or.inr ⟨_, _, rfl, rfl⟩

theorem get {v w : Value} (h : v.Same w) {n : String} {m : Value} (hm : v.get n = .ok m) :
    ∃ k, w.get n = .ok k ∧ m.Same k := by
  rcases get_rel h n with ⟨m', k, hm', hk, hs⟩ | ⟨f, g, hf, -⟩
  · cases hm.symm.trans hm'
    exact ⟨k, hk, hs⟩
  · cases hm.symm.trans hf

theorem get_error {v w : Value} (h : v.Same w) {n : String} {f : Failure}
    (hm : v.get n = .error f) : ∃ g, w.get n = .error g := by
  rcases get_rel h n with ⟨m, k, hm', -, -⟩ | ⟨-, g, -, hg⟩
  · cases hm.symm.trans hm'
  · exact ⟨g, hg⟩

theorem getI64 {v w : Value} (h : v.Same w) {n : String} {i : Int64}
    (hi : v.get n = .ok (.intValue i)) : w.getI64 n = .ok i := by
  obtain ⟨k, hk, hs⟩ := h.get hi
  exact Value.getI64_eq_ok.mpr ⟨k, hk, hs.i64⟩

theorem getString {v w : Value} (h : v.Same w) {n s : String}
    (hs : v.get n = .ok (.stringValue s)) : w.getString n = .ok s := by
  obtain ⟨k, hk, hsame⟩ := h.get hs
  rw [hsame.string_eq.mp rfl] at hk
  exact Value.getString_eq_ok.mpr hk

theorem has {v w : Value} (h : v.Same w) (n : String) : w.has n = v.has n := by
  rw [Bool.eq_iff_iff, Value.has_iff, Value.has_iff]
  rcases get_rel h n with ⟨m, k, hm, hk, -⟩ | ⟨f, g, hf, hg⟩
  · simp [hm, hk]
  · simp [hf, hg]

end Value.Same

end Json

namespace Session

section Messages

variable {env : Lsp.Declarations} {id : Int64} {method : String}

/-- The params are the one member that the params of a message give, if there are any. -/
theorem encodeParams_eq_success {type : Option Lsp.LspType} {params : Lsp.LspValue}
    {members : List Member} (h : encodeParams env type params = .success members) :
    (type = none ∧ members = []) ∨ ∃ t v, type = some t ∧
      Lsp.encode env t params = .success v ∧ members = [("params", v)] := by
  cases type with
  | none =>
    cases h
    exact Or.inl ⟨rfl, rfl⟩
  | some t =>
    obtain ⟨v, hv, hm⟩ := Outcome.andThen_eq_success.mp h
    cases hm
    exact Or.inr ⟨t, v, rfl, hv, rfl⟩

theorem encodeReply_name {type : RequestType} {reply : Reply} {member : Member}
    (h : encodeReply env type reply = .success member) :
    member.1 = "result" ∨ member.1 = "error" := by
  cases reply with
  | success x =>
    obtain ⟨v, -, hm⟩ := Outcome.andThen_eq_success.mp h
    cases hm
    exact Or.inl rfl
  | failure x =>
    simp only [encodeReply] at h
    cases hf : type.failure with
    | none =>
      rw [hf] at h
      cases h
    | some t =>
      rw [hf] at h
      obtain ⟨v, -, hm⟩ := Outcome.andThen_eq_success.mp h
      cases hm
      exact Or.inr rfl

/-- A response has the id, the version and the reply, and nothing else. -/
theorem responseMessage_members {member : Member}
    (hn : member.1 = "result" ∨ member.1 = "error") :
    ∃ ms, responseMessage id member = .objectValue ms ∧ OrderedEntries.Ordered ms ∧
      ∀ m, m ∈ ms ↔ m ∈ [("id", .intValue id), ("jsonrpc", .stringValue "2.0"), member] := by
  apply Json.Builder.object_members
  obtain ⟨n, v⟩ := member
  rcases hn with rfl | rfl <;> simp [OrderedEntries.keys]

theorem get_responseMessage (id : Int64) {member : Member}
    (hn : member.1 = "result" ∨ member.1 = "error") :
    (responseMessage id member).get "id" = .ok (.intValue id) ∧
      (responseMessage id member).get member.1 = .ok member.2 := by
  obtain ⟨n, v⟩ := member
  rcases hn with rfl | rfl <;> exact ⟨Json.Builder.get_object .., Json.Builder.get_object ..⟩

/-- A response has no method, and an error response has no result. -/
theorem get_responseMessage_error (id : Int64) {member : Member}
    (hn : member.1 = "result" ∨ member.1 = "error") :
    (∃ f, (responseMessage id member).get "method" = .error f) ∧
      (member.1 = "error" → ∃ f, (responseMessage id member).get "result" = .error f) := by
  obtain ⟨n, v⟩ := member
  rcases hn with rfl | rfl
  · exact ⟨⟨_, Json.Builder.get_object ..⟩, by simp⟩
  · exact ⟨⟨_, Json.Builder.get_object ..⟩, fun _ => ⟨_, Json.Builder.get_object ..⟩⟩

section Get

variable {type : Option Lsp.LspType} {params : Lsp.LspValue} {members : List Member}

theorem get_requestMessage (h : encodeParams env type params = .success members) :
    (requestMessage id method members).get "method" = .ok (.stringValue method) ∧
      (requestMessage id method members).get "id" = .ok (.intValue id) ∧
        ∀ v, ("params", v) ∈ members → (requestMessage id method members).get "params" = .ok v := by
  rcases encodeParams_eq_success h with ⟨-, rfl⟩ | ⟨t, v, -, -, rfl⟩
  · exact ⟨Json.Builder.get_object .., Json.Builder.get_object .., by simp⟩
  · refine ⟨Json.Builder.get_object .., Json.Builder.get_object .., fun w hw => ?_⟩
    obtain rfl : w = v := by simpa using hw
    exact Json.Builder.get_object ..

theorem getI64_requestMessage (h : encodeParams env type params = .success members) :
    (requestMessage id method members).getI64 "id" = .ok id :=
  Value.getI64_eq_ok.mpr ⟨_, (get_requestMessage h).2.1, rfl⟩

theorem get_notificationMessage (h : encodeParams env type params = .success members) :
    (notificationMessage method members).get "method" = .ok (.stringValue method) ∧
      (notificationMessage method members).has "id" = false ∧
        ∀ v, ("params", v) ∈ members → (notificationMessage method members).get "params" = .ok v := by
  rcases encodeParams_eq_success h with ⟨-, rfl⟩ | ⟨t, v, -, -, rfl⟩
  · exact ⟨Json.Builder.get_object .., Json.Builder.has_object .., by simp⟩
  · refine ⟨Json.Builder.get_object .., Json.Builder.has_object .., fun w hw => ?_⟩
    obtain rfl : w = v := by simpa using hw
    exact Json.Builder.get_object ..

end Get

end Messages

end Session

end Langsvr
