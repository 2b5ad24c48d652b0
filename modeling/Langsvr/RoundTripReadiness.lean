import Langsvr.CodecRoundTrip
import Langsvr.ProtocolExcerpt

/-!
# Types whose values all come back

The conditions on a type, and on all the types that occur in it, under which every
value is faithful: distinct member names, distinct enumerators, and alternatives of
which no earlier one accepts what is written for a later one.
-/

namespace Langsvr.Lsp

open Json (Value Member)

inductive Occurs (env : Declarations) (root : LspType) : LspType → Prop
  | root : Occurs env root root
  | vector {t : LspType} (h : Occurs env root (.vector t)) : Occurs env root t
  | tuple {ts : List LspType} {t : LspType} (h : Occurs env root (.tuple ts)) (ht : t ∈ ts) :
      Occurs env root t
  | map {t : LspType} (h : Occurs env root (.map t)) : Occurs env root t
  | oneOf {ts : List LspType} {t : LspType} (h : Occurs env root (.oneOf ts)) (ht : t ∈ ts) :
      Occurs env root t
  | property {n : String} {p : Property} (h : Occurs env root (.reference n))
      (hp : p ∈ (env.find n).allProperties) : Occurs env root p.type
  | lspAny {t : LspType} (h : Occurs env root .lspAny) (ht : t ∈ lspAnyItems) :
      Occurs env root t

/-- No earlier alternative accepts what is written for a value of a later one. -/
def Unambiguous (env : Declarations) (ts : List LspType) : Prop :=
  ∀ (i k : ℕ) (u t : LspType), i < k → ts[i]? = some u → ts[k]? = some t →
    ∀ x v, HasType env t x → encode env t x = .success v → ¬ Accepts env u v

/-- The conditions under which every value of a type survives a round trip. -/
structure RoundTripReady (env : Declarations) (root : LspType) : Prop where
  names : ∀ n, Occurs env root (.reference n) → (env.find n).memberNames.Nodup
  values : ∀ e, Occurs env root (.enumeration e) → e.values.Distinct
  unambiguous : ∀ ts, Occurs env root (.oneOf ts) → Unambiguous env ts
  unambiguousAny : Occurs env root .lspAny → Unambiguous env lspAnyItems

theorem Enumerators.Distinct.first {e : Enumerators} (h : e.Distinct) {i : ℕ} (hi : i < e.length) :
    e.First i := by
  have hne : ∀ {α : Type} {vs : List α}, vs.Nodup → i < vs.length → ∀ j < i, vs[j]? ≠ vs[i]? := by
    intro α vs hn hl j hj heq
    have hij := (List.getElem?_inj (hj.trans hl) hn).mp heq
    omega
  cases e with
  | string vs => exact hne h hi
  | integer vs => exact hne h hi
  | uinteger vs => exact hne h hi

section SlotTypes

theorem slots_type (s : Structure) {x : LspValue} {n : String} {t : LspType} {y : LspValue}
    (h : (n, Slot.value t y) ∈ s.slots x) : ∃ p ∈ s.allProperties, p.type = t := by
  replace h := contributes_of_mem s h
  generalize hslot : Slot.value t y = slot at h
  induction h with
  | kind => cases hslot
  | member hp =>
    cases hslot
    exact ⟨_, List.mem_append_left _ hp, rfl⟩
  | base hb _ _ ih =>
    obtain ⟨p, hp, ht⟩ := ih hslot
    exact ⟨p, List.mem_append_right _ (mem_baseProperties.mpr ⟨_, hb, hp⟩), ht⟩

end SlotTypes

section Ready

variable {env : Declarations} {root : LspType}

private theorem Unambiguous.not_shadowed {ts : List LspType} (h : Unambiguous env ts) {k : ℕ}
    {t : LspType} {x : LspValue} (hk : ts[k]? = some t) (hx : HasType env t x) :
    ¬ Shadowed env ts k t x := by
  intro h
  obtain ⟨i, hi, u, v, hu, hv, hm⟩ := h
  exact h i k u t hi hu hk x v hx hv (accepts_of_matches hm (encode_wellFormed hx hv))

/-- Without repeated names the slots of a value do not meet. -/
private theorem distinct_slots {s : Structure} (hn : s.memberNames.Nodup) {x : LspValue}
    (hs : s.Shaped x) : (OrderedEntries.keys (s.slots x)).Nodup ∧
      ∀ m ∈ s.absentNames x, m ∉ OrderedEntries.keys (s.slots x) := by
  have hperm := slots_names_perm s hs
  have hall := List.nodup_append.mp (hperm.nodup_iff.mpr hn)
  exact ⟨hall.1, fun m hm hk => hall.2.2 m hk m hm rfl⟩

/-- All values of the types that occur are faithful. -/
theorem RoundTripReady.faithful (hr : RoundTripReady env root) {t : LspType} {x : LspValue}
    (hx : HasType env t x) (ht : Occurs env root t) (hset : x.AllSet) : Faithful env t x := by
  induction hx with
  | null => exact .null
  | boolean b => exact .boolean b
  | integer i => exact .integer i
  | uinteger u => exact .uinteger u
  | decimal d => exact .decimal d
  | string s => exact .string s
  | enumeration hi => exact .enumeration ((hr.values _ ht).first hi)
  | vector _ ih =>
    have hs := LspValue.allSetList_iff.mp hset
    exact .vector fun x hm => ih x hm ht.vector (hs x hm)
  | tuple _ _ ih =>
    have hs := LspValue.allSetList_iff.mp hset
    exact .tuple fun p hm =>
      ih p hm (ht.tuple (List.of_mem_zip hm).1) (hs p.2 (List.of_mem_zip hm).2)
  | map _ _ ih =>
    have hs := LspValue.allSetEntries_iff.mp hset
    exact .map fun e hm => ih e hm ht.map (hs e hm)
  | oneOfEmpty | lspAnyEmpty => exact absurd hset (by simp [LspValue.AllSet])
  | oneOf hk hx ih =>
    exact .oneOf hk ((hr.unambiguous _ ht).not_shadowed hk hx)
      (ih (ht.oneOf (List.mem_of_getElem? hk)) hset)
  | lspAny hk hx ih =>
    exact .lspAny hk ((hr.unambiguousAny ht).not_shadowed hk hx)
      (ih (ht.lspAny (List.mem_of_getElem? hk)) hset)
  | @reference n x hs _ ih =>
    obtain ⟨hkeys, habsent⟩ := distinct_slots (hr.names n ht) hs
    refine .reference (fun m t y hl => ?_) (fun m s l hm hl hne => ?_) habsent
    · have hm := OrderedEntries.mem_of_lastWrite hl
      obtain ⟨p, hp, rfl⟩ := slots_type _ hm
      exact ih m _ y hm (ht.property hp) (allSet_slots _ hset hm)
    · rw [OrderedEntries.lastWrite_of_mem_nodup hkeys hm, Option.some.injEq] at hl
      exact absurd hl hne

/-- Every value of a ready type is written, and is read back as it was. -/
theorem ready_round_trip (hr : RoundTripReady env root) {x : LspValue} (hx : HasType env root x)
    (hset : x.AllSet) : ∃ v, encode env root x = .success v ∧
      decode env root v (env.default root) = .ok x := by
  obtain ⟨v, hv⟩ := encode_eq_success_of_allSet hx hset
  exact ⟨v, hv, (decode_encode_iff hx hv).mpr (hr.faithful hx .root hset)⟩

end Ready

section Progress

def progressMessage : LspType := .oneOf [.string, .reference "WorkDoneProgressBegin"]

def indexing : LspValue :=
  .oneOf 1 (.struct [.string "Indexing", .absent, .present (.string "3/25 files"),
    .present (.uinteger 12)] [])

private theorem occurs_progressMessage {t : LspType} (h : Occurs protocol progressMessage t) :
    t = progressMessage ∨ t = .string ∨ t = .reference "WorkDoneProgressBegin" ∨ t = .boolean ∨
      t = .uinteger := by
  unfold progressMessage at *
  induction h with
  | root => exact .inl rfl
  | oneOf _ ht ih =>
    simp only [LspType.oneOf.injEq, reduceCtorEq, or_false] at ih
    subst ih
    simp only [List.mem_cons, List.not_mem_nil, or_false] at ht
    rcases ht with rfl | rfl <;> simp
  | property _ hp ih =>
    simp only [reduceCtorEq, LspType.reference.injEq, false_or, or_false] at ih
    subst ih
    have hps : (protocol.find "WorkDoneProgressBegin").allProperties =
      [⟨"title", false, .string⟩, ⟨"cancellable", true, .boolean⟩, ⟨"message", true, .string⟩,
        ⟨"percentage", true, .uinteger⟩] := rfl
    simp only [hps, List.mem_cons, List.not_mem_nil, or_false] at hp
    rcases hp with rfl | rfl | rfl | rfl <;> simp
  | _ => simp_all

theorem progressMessage_ready : RoundTripReady protocol progressMessage where
  names n hn := by
    have ht := occurs_progressMessage hn
    simp only [progressMessage, reduceCtorEq, LspType.reference.injEq, false_or, or_false] at ht
    subst ht
    decide
  values e he := by simpa [progressMessage] using occurs_progressMessage he
  unambiguous ts ht := by
    have hts := occurs_progressMessage ht
    simp only [progressMessage, LspType.oneOf.injEq, reduceCtorEq, or_false] at hts
    subst hts
    rintro (_ | i) (_ | _ | k) u t hik hu hk x v hx hv ha
    all_goals simp at hik hu hk
    subst hu hk
    cases hx with
    | reference hs =>
      obtain ⟨ws, -, rfl⟩ := (encode_reference hs).mp hv
      obtain ⟨y, hy⟩ := ha
      rw [decodeNew, decode_eq] at hy
      cases hy
  unambiguousAny h := by simpa [progressMessage] using occurs_progressMessage h

theorem indexing_hasType : HasType protocol progressMessage indexing := by
  refine .oneOf rfl (.reference ?_ fun m t y hm => ?_)
  · simp [protocol, Declarations.find, workDoneProgressBegin, Structure.Shaped,
      Structure.MembersShaped, Structure.MemberShaped, Structure.BasesShaped]
  · have hslots : (protocol.find "WorkDoneProgressBegin").slots
        (.struct [.string "Indexing", .absent, .present (.string "3/25 files"),
          .present (.uinteger 12)] []) =
      [("kind", .kind "begin"), ("title", .value .string (.string "Indexing")),
        ("message", .value .string (.string "3/25 files")),
        ("percentage", .value .uinteger (.uinteger 12))] := rfl
    simp only [hslots, List.mem_cons, Prod.mk.injEq, reduceCtorEq, and_false, Slot.value.injEq,
      List.not_mem_nil, or_false, false_or] at hm
    rcases hm with ⟨-, rfl, rfl⟩ | ⟨-, rfl, rfl⟩ | ⟨-, rfl, rfl⟩
    · exact .string _
    · exact .string _
    · exact .uinteger _

/-- A report with a literal kind, an absent property and two that are present. -/
theorem ready_round_trip_indexing : ∃ v, encode protocol progressMessage indexing = .success v ∧
    decode protocol progressMessage v (protocol.default progressMessage) = .ok indexing :=
  ready_round_trip progressMessage_ready indexing_hasType
    (by simp [indexing, LspValue.AllSet, LspValue.AllSetList])

end Progress

end Langsvr.Lsp
