import Langsvr.Decoding

/-!
# Failures and outputs of decoding

Every failure of a `Decode` has a reason, so the tuple codec, which infers success
from an empty error text, succeeds exactly when every element does. A call that
starts from a blank output, one whose containers are empty and whose Optionals are
absent, has a result that does not depend on that output.
-/

namespace Langsvr

/-- A failure has a reason. -/
def Result.Explained {α : Type} (r : Result α) : Prop := ∀ f, r = .error f → f.reason ≠ ""

namespace Result.Explained

variable {α β : Type}

theorem ok (a : α) : Result.Explained (.ok a) := by
  intro f h
  cases h

theorem error {f : Failure} (h : f.reason ≠ "") : Result.Explained (α := α) (.error f) := by
  intro g hg
  cases hg
  exact h

theorem bind {r : Result α} {f : α → Result β} (hr : r.Explained)
    (hf : ∀ a, r = .ok a → (f a).Explained) : Result.Explained (r >>= f) := by
  cases r with
  | error e =>
    intro g hg
    cases hg
    exact hr e rfl
  | ok a => exact hf a rfl

theorem mapM {f : α → Result β} {as : List α} (h : ∀ a ∈ as, (f a).Explained) :
    Result.Explained (as.mapM f) := by
  induction as with
  | nil => exact ok _
  | cons a as ih =>
    rw [List.mapM_cons]
    refine bind (h a (List.mem_cons_self ..)) fun b _ => ?_
    exact bind (ih fun c hc => h c (List.mem_cons_of_mem _ hc)) fun bs _ => ok _

theorem foldlM {f : β → α → Result β} (h : ∀ b a, (f b a).Explained) (b : β) (as : List α) :
    Result.Explained (as.foldlM f b) := by
  induction as generalizing b with
  | nil => exact ok _
  | cons a as ih =>
    rw [List.foldlM_cons]
    exact bind (h b a) fun c _ => ih c

end Result.Explained

namespace Json.Value

theorem errIncorrectType_reason (v : Value) (wanted : String) :
    (v.errIncorrectType wanted).reason ≠ "" := by
  simp [errIncorrectType]

theorem null_explained (v : Value) : v.null.Explained := by
  cases v <;> first | exact .ok _ | exact .error (errIncorrectType_reason _ _)

theorem bool_explained (v : Value) : v.bool.Explained := by
  cases v <;> first | exact .ok _ | exact .error (errIncorrectType_reason _ _)

theorem string_explained (v : Value) : v.string.Explained := by
  cases v <;> first | exact .ok _ | exact .error (errIncorrectType_reason _ _)

theorem i64_explained (v : Value) : v.i64.Explained := by
  unfold i64
  split
  · exact .ok _
  · exact .error (errIncorrectType_reason _ _)

theorem u64_explained (v : Value) : v.u64.Explained := by
  unfold u64
  split
  · exact .ok _
  · exact .error (errIncorrectType_reason _ _)

theorem f64_explained (v : Value) : v.f64.Explained := by
  unfold f64
  split
  · exact .ok _
  · exact .error (errIncorrectType_reason _ _)

theorem getIndex_explained (v : Value) (i : ℕ) : (v.getIndex i).Explained := by
  unfold getIndex
  split
  · split
    · exact .ok _
    · exact .error (by simp)
  · exact .error (errIncorrectType_reason _ _)

theorem get_explained (v : Value) (n : String) : (v.get n).Explained := by
  unfold get
  split
  · split
    · exact .ok _
    · exact .error (by simp)
  · exact .error (errIncorrectType_reason _ _)

theorem memberNames_explained (v : Value) : v.memberNames.Explained := by
  cases v <;> first | exact .ok _ | exact .error (errIncorrectType_reason _ _)

end Json.Value

namespace Lsp

open Json (Value)

variable {env : Declarations} {dec : LspType → Decoder} {v : Value}

/-- The parts of a JSON value fail with a reason only. -/
def ExplainedBelow (dec : LspType → Decoder) (v : Value) : Prop :=
  ∀ t c out, c.depth < v.depth → (dec t c out).Explained

theorem ExplainedBelow.index (h : ExplainedBelow dec v) (t : LspType) (i : ℕ) (out : LspValue) :
    Result.Explained (do dec t (← v.getIndex i) out) :=
  .bind (v.getIndex_explained i) fun e he => h t e out (depth_getIndex he)

theorem ExplainedBelow.member (h : ExplainedBelow dec v) (t : LspType) (n : String)
    (out : LspValue) : Result.Explained (do dec t (← v.get n) out) :=
  .bind (v.get_explained n) fun m hm => h t m out (depth_get hm)

theorem decodeEnumeration_explained (e : Enumeration) (out : LspValue) :
    (decodeEnumeration e v out).Explained := by
  have hf : (e.values.find v).Explained := by
    cases e.values with
    | string vs => exact .bind v.string_explained fun _ _ => .ok _
    | integer vs => exact .bind v.i64_explained fun _ _ => .ok _
    | uinteger vs => exact .bind v.u64_explained fun _ _ => .ok _
  refine .bind hf fun i _ => ?_
  cases i with
  | none => exact .error (by simp)
  | some i => exact .ok _

theorem decodeVector_explained (h : ExplainedBelow dec v) (t : LspType) (fresh out : LspValue) :
    (decodeVector (dec t) fresh v out).Explained := by
  unfold decodeVector
  split
  · exact .error (by simp)
  · exact .bind (.mapM fun i _ => h.index t i _) fun _ _ => .ok _

theorem decodeTuple_explained (decs : List Decoder) (out : LspValue) :
    (decodeTuple decs v out).Explained := by
  unfold decodeTuple
  split
  · exact .error (by simp)
  · split
    · exact .error (by simp)
    · dsimp only
      split
      · exact .ok _
      · exact .error (by assumption)

theorem decodeMap_explained (h : ExplainedBelow dec v) (t : LspType) (fresh out : LspValue) :
    (decodeMap (dec t) fresh v out).Explained := by
  unfold decodeMap
  split
  · exact .error (by simp)
  · refine .bind v.memberNames_explained fun names _ => ?_
    refine .bind (.foldlM (fun es n => ?_) _ _) fun _ _ => .ok _
    refine .bind (v.get_explained n) fun m hm => ?_
    exact .bind (h t m _ (depth_get hm)) fun _ _ => .ok _

theorem decodeOneOf_explained (types : List (Decoder × LspValue)) (out : LspValue) :
    (decodeOneOf types v out).Explained := by
  unfold decodeOneOf
  split
  · exact .ok _
  · exact .error (by simp)

theorem matchKind_explained (want : String) : (matchKind v want).Explained := by
  refine .bind (.bind (v.get_explained _) fun m _ => m.string_explained) fun got _ => ?_
  split
  · exact .error (by simp)
  · exact .ok _

theorem decodeProperties_explained (h : ExplainedBelow dec v) (fresh : LspType → LspValue)
    (ps : List Property) (outs : List LspValue) :
    (decodeProperties dec fresh v ps outs).Explained := by
  induction ps generalizing outs with
  | nil => exact .ok _
  | cons p ps ih =>
    refine .bind ?_ fun x _ => .bind (ih _) fun xs _ => .ok _
    unfold decodeProperty
    split
    · split
      · refine .bind (v.get_explained _) fun m hm => ?_
        exact .bind (h p.type m _ (depth_get hm)) fun _ _ => .ok _
      · exact .ok _
    · exact h.member p.type p.jsonName _

mutual

theorem decodeStructure_explained (h : ExplainedBelow dec v) (fresh : LspType → LspValue)
    (s : Structure) (out : LspValue) : (decodeStructure dec fresh s v out).Explained := by
  cases s with
  | mk kind ps bs =>
    rw [decodeStructure]
    split
    · exact .error (by simp)
    · refine .bind ?_ fun _ _ => .bind (decodeProperties_explained h fresh ps _) fun ms _ =>
        .bind (decodeBases_explained h fresh bs _) fun ss _ => .ok _
      cases kind with
      | none => exact .ok _
      | some k => exact matchKind_explained k

theorem decodeBases_explained (h : ExplainedBelow dec v) (fresh : LspType → LspValue)
    (bs : List Structure) (outs : List LspValue) :
    (decodeBases dec fresh v bs outs).Explained := by
  cases bs with
  | nil => exact .ok _
  | cons b bs =>
    exact .bind (decodeStructure_explained h fresh b _) fun s _ =>
      .bind (decodeBases_explained h fresh bs _) fun ss _ => .ok _

end

/-- Every failure of a `Decode` has a reason. -/
theorem decode_explained (env : Declarations) (t : LspType) (v : Value) (out : LspValue) :
    (decode env t v out).Explained := by
  refine decode_induct (P := fun _ _ _ r => r.Explained) (fun v ih t out => ?_) t v out
  have h : ExplainedBelow (decode env) v := ih
  cases t with
  | null => exact .bind v.null_explained fun _ _ => .ok _
  | boolean => exact .bind v.bool_explained fun _ _ => .ok _
  | integer => exact .bind v.i64_explained fun _ _ => .ok _
  | uinteger => exact .bind v.u64_explained fun _ _ => .ok _
  | decimal => exact .bind v.f64_explained fun _ _ => .ok _
  | string => exact .bind v.string_explained fun _ _ => .ok _
  | enumeration e => exact decodeEnumeration_explained e out
  | vector t => exact decodeVector_explained h t _ out
  | tuple ts => exact decodeTuple_explained _ out
  | map t => exact decodeMap_explained h t _ out
  | oneOf ts => exact decodeOneOf_explained _ out
  | reference n => exact decodeStructure_explained h _ _ out
  | lspAny => exact decodeOneOf_explained _ out

section Tuples

variable {decs : List Decoder}

/-- The loop of the tuple codec: without an error text, every element was decoded. -/
theorem decodeItems_eq_empty (hd : ∀ dec ∈ decs, ∀ c out, (dec c out).Explained) {i : ℕ}
    {outs xs : List LspValue} :
    decodeItems v decs i outs = (xs, "") ↔ xs.length = decs.length ∧
      ∀ j, ∀ dec, decs[j]? = some dec → ∃ e x, v.getIndex (i + j) = .ok e ∧ xs[j]? = some x ∧
        dec e (outs.getD j .null) = .ok x := by
  induction decs generalizing i outs xs with
  | nil => simp [decodeItems, eq_comm]
  | cons dec decs ih =>
    have hdec := hd dec (List.mem_cons_self ..)
    have htail := @ih (fun d hm => hd d (List.mem_cons_of_mem _ hm)) (i + 1) outs.tail
    constructor
    · intro h
      simp only [decodeItems] at h
      cases hi : v.getIndex i with
      | error f =>
        simp only [hi, Prod.mk.injEq] at h
        exact absurd h.2 (v.getIndex_explained i f hi)
      | ok e =>
        cases hx : dec e (outs.headD .null) with
        | error f =>
          simp only [hi, hx, Prod.mk.injEq] at h
          exact absurd h.2 (hdec e _ f hx)
        | ok x =>
          simp only [hi, hx, Prod.mk.injEq] at h
          obtain ⟨rfl, hr⟩ := h
          have hr' : decodeItems v decs (i + 1) outs.tail = (_, "") := Prod.ext rfl hr
          obtain ⟨hl, ht⟩ := htail.mp hr'
          refine ⟨by simp [hl], ?_⟩
          intro j d hj
          cases j with
          | zero =>
            simp only [List.getElem?_cons_zero, Option.some.injEq] at hj
            subst hj
            refine ⟨e, x, hi, rfl, ?_⟩
            cases outs <;> simpa using hx
          | succ j =>
            obtain ⟨e', x', he', hx', hd'⟩ := ht j d (by simpa using hj)
            refine ⟨e', x', by rw [← he']; congr 1; omega, by simpa using hx', ?_⟩
            cases outs <;> simpa using hd'
    · intro h
      obtain ⟨hl, h⟩ := h
      obtain ⟨e, x, he, hx, hd⟩ := h 0 dec rfl
      cases xs with
      | nil => simp at hl
      | cons y ys =>
        simp only [List.getElem?_cons_zero, Option.some.injEq] at hx
        subst hx
        have hh : dec e (outs.headD .null) = .ok y := by cases outs <;> simpa using hd
        have hys : decodeItems v decs (i + 1) outs.tail = (ys, "") := by
          refine htail.mpr ⟨by simpa using hl, ?_⟩
          intro j d hj
          obtain ⟨e', x', he', hx', hd'⟩ := h (j + 1) d (by simpa using hj)
          refine ⟨e', x', by rw [← he']; congr 1; omega, by simpa using hx', ?_⟩
          cases outs <;> simpa using hd'
        have hi : v.getIndex i = .ok e := he
        simp only [decodeItems, hi, hh, hys]

end Tuples

namespace LspValue

mutual

/-- Empty containers, absent Optionals; scalars and `OneOf`s are overwritten anyway. -/
def Blank : LspValue → Prop
  | .vector xs => xs = []
  | .map es => es = []
  | .present _ => False
  | .tuple xs => BlankList xs
  | .struct ms ss => BlankList ms ∧ BlankList ss
  | _ => True

def BlankList : List LspValue → Prop
  | [] => True
  | x :: xs => x.Blank ∧ BlankList xs

end

theorem BlankList.headD {xs : List LspValue} (h : BlankList xs) : (xs.headD .null).Blank := by
  cases xs with
  | nil => simp [Blank]
  | cons x xs => exact h.1

theorem BlankList.tail {xs : List LspValue} (h : BlankList xs) : BlankList xs.tail := by
  cases xs with
  | nil => simp [BlankList]
  | cons x xs => exact h.2

theorem BlankList.getD {xs : List LspValue} (h : BlankList xs) (i : ℕ) {y : LspValue}
    (hy : y.Blank) : (xs.getD i y).Blank := by
  induction xs generalizing i with
  | nil => simpa using hy
  | cons x xs ih =>
    cases i with
    | zero => exact h.1
    | succ i => simpa using ih h.2 i

theorem Blank.elements {x : LspValue} (h : x.Blank) : BlankList x.elements := by
  cases x <;> simp_all [Blank, LspValue.elements, BlankList]

theorem Blank.entries {x : LspValue} (h : x.Blank) : x.entries = [] := by
  cases x <;> simp_all [Blank, LspValue.entries]

theorem Blank.members {x : LspValue} (h : x.Blank) : BlankList x.members := by
  cases x <;> simp_all [Blank, LspValue.members, BlankList]

theorem Blank.bases {x : LspValue} (h : x.Blank) : BlankList x.bases := by
  cases x <;> simp_all [Blank, LspValue.bases, BlankList]

theorem Blank.asOptional {x : LspValue} (h : x.Blank) : x.asOptional = .absent := by
  cases x <;> simp_all [Blank, LspValue.asOptional]

end LspValue

open LspValue (Blank BlankList)

section Default

/-! What holds of the default values of the other types, and passes from parts to tuples and
structures, holds of every default-constructed object. -/

/-- The default values that have no parts. -/
def LspValue.defaults : List LspValue :=
  [.null, .boolean false, .integer 0, .uinteger 0, .decimal ⟨0⟩, .string "", .enumeration 0,
    .vector [], .map [], .oneOfEmpty, .absent]

variable {P : LspValue → Prop}

mutual

private theorem of_defaultWith (hleaf : ∀ x ∈ LspValue.defaults, P x)
    (htuple : ∀ xs, (∀ x ∈ xs, P x) → P (.tuple xs)) {structs : String → LspValue}
    (h : ∀ n, P (structs n)) (t : LspType) : P (t.defaultWith structs) := by
  cases t with
  | tuple ts => exact htuple _ (of_defaultsWith hleaf htuple h ts)
  | reference n => exact h n
  | _ => exact hleaf _ (by simp [LspType.defaultWith, LspValue.defaults])

private theorem of_defaultsWith (hleaf : ∀ x ∈ LspValue.defaults, P x)
    (htuple : ∀ xs, (∀ x ∈ xs, P x) → P (.tuple xs)) {structs : String → LspValue}
    (h : ∀ n, P (structs n)) (ts : List LspType) :
    ∀ x ∈ LspType.defaultsWith structs ts, P x := by
  cases ts with
  | nil => simp [LspType.defaultsWith]
  | cons t ts =>
    exact List.forall_mem_cons.mpr
      ⟨of_defaultWith hleaf htuple h t, of_defaultsWith hleaf htuple h ts⟩

end

mutual

theorem Structure.of_default (s : Structure) {dflt : LspType → LspValue} (habsent : P .absent)
    (hstruct : ∀ ms ss, (∀ m ∈ ms, P m) → (∀ b ∈ ss, P b) → P (.struct ms ss))
    (h : ∀ t, P (dflt t)) : P (s.default dflt) := by
  cases s with
  | mk kind ps bs =>
    refine hstruct _ _ (fun m hm => ?_) (of_defaultBases bs habsent hstruct h)
    obtain ⟨p, -, rfl⟩ := List.mem_map.mp hm
    unfold Property.default
    split
    · exact habsent
    · exact h p.type

private theorem of_defaultBases (bs : List Structure) {dflt : LspType → LspValue}
    (habsent : P .absent)
    (hstruct : ∀ ms ss, (∀ m ∈ ms, P m) → (∀ b ∈ ss, P b) → P (.struct ms ss))
    (h : ∀ t, P (dflt t)) : ∀ x ∈ Structure.defaultBases dflt bs, P x := by
  cases bs with
  | nil => simp [Structure.defaultBases]
  | cons b bs =>
    exact List.forall_mem_cons.mpr
      ⟨b.of_default habsent hstruct h, of_defaultBases bs habsent hstruct h⟩

end

theorem Declarations.of_default (env : Declarations) (hleaf : ∀ x ∈ LspValue.defaults, P x)
    (htuple : ∀ xs, (∀ x ∈ xs, P x) → P (.tuple xs))
    (hstruct : ∀ ms ss, (∀ m ∈ ms, P m) → (∀ b ∈ ss, P b) → P (.struct ms ss)) (t : LspType) :
    P (env.default t) := by
  induction env generalizing t with
  | nil =>
    exact of_defaultWith hleaf htuple (fun _ => hstruct [] [] (by simp) (by simp)) t
  | cons d ds ih =>
    refine of_defaultWith hleaf htuple (fun n => ?_) t
    split
    · exact d.definition.of_default (hleaf _ (by simp [LspValue.defaults])) hstruct ih
    · exact ih _

theorem blankList_iff {xs : List LspValue} : BlankList xs ↔ ∀ x ∈ xs, x.Blank := by
  induction xs with
  | nil => simp [BlankList]
  | cons x xs ih => simp [BlankList, ih]

private theorem blank_struct (ms ss : List LspValue) (hms : ∀ m ∈ ms, m.Blank)
    (hss : ∀ b ∈ ss, b.Blank) : (LspValue.struct ms ss).Blank :=
  ⟨blankList_iff.mpr hms, blankList_iff.mpr hss⟩

theorem blank_structure_default {dflt : LspType → LspValue} (h : ∀ t, (dflt t).Blank)
    (s : Structure) : (s.default dflt).Blank :=
  s.of_default trivial blank_struct h

/-- A default-constructed object is blank. -/
theorem blank_default (env : Declarations) (t : LspType) : (env.default t).Blank :=
  env.of_default (by simp [LspValue.defaults, Blank]) (fun _ h => blankList_iff.mpr h)
    blank_struct t

end Default

section BlankOutputs

/-- The parts of a JSON value decode alike into any two blank outputs. -/
def BlankBelow (dec : LspType → Decoder) (v : Value) : Prop :=
  ∀ t c out out', c.depth < v.depth → out.Blank → out'.Blank → dec t c out = dec t c out'

theorem BlankBelow.index (h : BlankBelow dec v) (t : LspType) (i : ℕ) {out out' : LspValue}
    (ho : out.Blank) (ho' : out'.Blank) :
    (do dec t (← v.getIndex i) out) = (do dec t (← v.getIndex i) out') := by
  cases hi : v.getIndex i with
  | error f => rfl
  | ok e => exact h t e out out' (depth_getIndex hi) ho ho'

theorem BlankBelow.member (h : BlankBelow dec v) (t : LspType) (n : String) {out out' : LspValue}
    (ho : out.Blank) (ho' : out'.Blank) :
    (do dec t (← v.get n) out) = (do dec t (← v.get n) out') := by
  cases hn : v.get n with
  | error f => rfl
  | ok m => exact h t m out out' (depth_get hn) ho ho'

variable {out out' : LspValue}

theorem decodeVector_blank (h : BlankBelow dec v) (t : LspType) {fresh : LspValue}
    (hf : fresh.Blank) (ho : out.Blank) (ho' : out'.Blank) :
    decodeVector (dec t) fresh v out = decodeVector (dec t) fresh v out' := by
  have hi : ∀ i, (do dec t (← v.getIndex i) (out.elements.getD i fresh)) =
      (do dec t (← v.getIndex i) (out'.elements.getD i fresh)) := fun i =>
    h.index t i (ho.elements.getD i hf) (ho'.elements.getD i hf)
  simp only [decodeVector, hi]

theorem decodeMap_blank (dec : Decoder) (fresh : LspValue) (ho : out.Blank) (ho' : out'.Blank) :
    decodeMap dec fresh v out = decodeMap dec fresh v out' := by
  simp only [decodeMap, ho.entries, ho'.entries]

/-- Unless it stops, the loop of the tuple codec overwrites all it was given. -/
theorem decodeItems_blank (h : BlankBelow dec v)
    (he : ∀ t c o, (dec t c o).Explained) (ts : List LspType) (i : ℕ)
    {outs outs' : List LspValue} (ho : BlankList outs) (ho' : BlankList outs') :
    (decodeItems v (ts.map dec) i outs).2 = (decodeItems v (ts.map dec) i outs').2 ∧
      ((decodeItems v (ts.map dec) i outs).2 = "" →
        (decodeItems v (ts.map dec) i outs).1 = (decodeItems v (ts.map dec) i outs').1) := by
  induction ts generalizing i outs outs' with
  | nil => exact ⟨rfl, fun _ => rfl⟩
  | cons t ts ih =>
    simp only [List.map_cons, decodeItems]
    cases hi : v.getIndex i with
    | error f => exact ⟨rfl, fun hr => absurd hr (v.getIndex_explained i f hi)⟩
    | ok e =>
      have heq := h t e _ _ (depth_getIndex hi) ho.headD ho'.headD
      cases hx : dec t e (outs.headD .null) with
      | error f =>
        rw [hx] at heq
        simp only [hx, ← heq]
        exact ⟨trivial, fun hr => absurd hr (he t e _ f hx)⟩
      | ok x =>
        rw [hx] at heq
        have hrest := ih (i + 1) ho.tail ho'.tail
        simp only [hx, ← heq]
        exact ⟨hrest.1, fun hr => congrArg (x :: ·) (hrest.2 hr)⟩

theorem decodeTuple_blank (h : BlankBelow dec v) (he : ∀ t c o, (dec t c o).Explained)
    (ts : List LspType) (ho : out.Blank) (ho' : out'.Blank) :
    decodeTuple (ts.map dec) v out = decodeTuple (ts.map dec) v out' := by
  have hi := decodeItems_blank h he ts 0 ho.elements ho'.elements
  unfold decodeTuple
  split
  · rfl
  · split
    · rfl
    · by_cases hr : (decodeItems v (ts.map dec) 0 out.elements).2 = ""
      · simp only [hr, ← hi.1, hi.2 hr]
      · simp only [hr, ← hi.1, if_false]

theorem decodeProperties_blank (h : BlankBelow dec v) (fresh : LspType → LspValue)
    (ps : List Property) {outs outs' : List LspValue} (ho : BlankList outs)
    (ho' : BlankList outs') :
    decodeProperties dec fresh v ps outs = decodeProperties dec fresh v ps outs' := by
  induction ps generalizing outs outs' with
  | nil => rfl
  | cons p ps ih =>
    have hp : decodeProperty dec fresh p v (outs.headD .null) =
        decodeProperty dec fresh p v (outs'.headD .null) := by
      simp only [decodeProperty, ho.headD.asOptional, ho'.headD.asOptional,
        h.member p.type p.jsonName ho.headD ho'.headD]
    simp only [decodeProperties, hp, ih ho.tail ho'.tail]

mutual

theorem decodeStructure_blank (h : BlankBelow dec v) (fresh : LspType → LspValue)
    (s : Structure) {out out' : LspValue} (ho : out.Blank) (ho' : out'.Blank) :
    decodeStructure dec fresh s v out = decodeStructure dec fresh s v out' := by
  cases s with
  | mk kind ps bs =>
    simp only [decodeStructure, decodeProperties_blank h fresh ps ho.members ho'.members,
      decodeBases_blank h fresh bs ho.bases ho'.bases]

theorem decodeBases_blank (h : BlankBelow dec v) (fresh : LspType → LspValue)
    (bs : List Structure) {outs outs' : List LspValue} (ho : BlankList outs)
    (ho' : BlankList outs') :
    decodeBases dec fresh v bs outs = decodeBases dec fresh v bs outs' := by
  cases bs with
  | nil => rfl
  | cons b bs =>
    simp only [decodeBases, decodeStructure_blank h fresh b ho.headD ho'.headD,
      decodeBases_blank h fresh bs ho.tail ho'.tail]

end

/-- The result of a call does not depend on the blank output that it starts from. -/
theorem decode_blank (env : Declarations) (t : LspType) (v : Value) {out out' : LspValue}
    (ho : out.Blank) (ho' : out'.Blank) : decode env t v out = decode env t v out' := by
  refine decode_induct (P := fun t v out r => out.Blank → ∀ out', out'.Blank →
    r = decode env t v out') (fun v ih t out ho out' ho' => ?_) t v out ho out' ho'
  have h : BlankBelow (decode env) v := fun t c o o' hc hb hb' => ih t c o hc hb o' hb'
  rw [decode_eq env t v out']
  cases t with
  | vector t => exact decodeVector_blank h t (blank_default env t) ho ho'
  | tuple ts => exact decodeTuple_blank h (decode_explained env) ts ho ho'
  | map t => exact decodeMap_blank _ _ ho ho'
  | reference n => exact decodeStructure_blank h _ _ ho ho'
  | _ => rfl

end BlankOutputs

end Lsp

end Langsvr
