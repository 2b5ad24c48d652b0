import Langsvr.CodecTypes

/-!
# Decoding

The overloads of `Decode`, one definition for each overload or template. A decoder
takes the JSON value and what the output holds before the call, and returns what a
successful call leaves in the output. The failure of a call discards the output at
every caller, so its partial contents are not modelled. `decode` closes the
recursion on the nesting depth of the JSON value.
-/

namespace Langsvr.Lsp

open Json (Value)

abbrev Decoder := Value → LspValue → Result LspValue

def decodeNull : Decoder := fun v _ => do
  v.null
  return .null

def decodeBoolean : Decoder := fun v _ => return .boolean (← v.bool)

def decodeInteger : Decoder := fun v _ => return .integer (← v.i64)

def decodeUinteger : Decoder := fun v _ => return .uinteger (← v.u64)

def decodeDecimal : Decoder := fun v _ => return .decimal (← v.f64)

def decodeString : Decoder := fun v _ => return .string (← v.string)

/-- Decode as the underlying type and find the first enumerator of that value. -/
def Enumerators.find : Enumerators → Value → Result (Option ℕ)
  | .string vs, v => return vs.idxOf? (← v.string)
  | .integer vs, v => return vs.idxOf? (← v.i64)
  | .uinteger vs, v => return vs.idxOf? (← v.u64)

def decodeEnumeration (e : Enumeration) : Decoder := fun v _ => do
  match ← e.values.find v with
  | some i => .ok (.enumeration i)
  | none => .error ⟨"invalid value for enum " ++ e.name⟩

namespace LspValue

/-- The elements that a vector or a tuple holds before it is decoded into. -/
def elements : LspValue → List LspValue
  | .vector xs | .tuple xs => xs
  | _ => []

def entries : LspValue → List (String × LspValue)
  | .map es => es
  | _ => []

def members : LspValue → List LspValue
  | .struct ms _ => ms
  | _ => []

def bases : LspValue → List LspValue
  | .struct _ ss => ss
  | _ => []

/-- The state of an `Optional`. -/
def asOptional : LspValue → LspValue
  | .present x => .present x
  | _ => .absent

end LspValue

/-- The output is resized first, so element `i` is decoded into what it held before or
into a new element. -/
def decodeVector (dec : Decoder) (fresh : LspValue) : Decoder := fun v out =>
  if v.kind ≠ .array then .error ⟨"JSON value is not an array"⟩
  else do
    let xs ← (List.range v.count).mapM fun i => do
      dec (← v.getIndex i) (out.elements.getD i fresh)
    return .vector xs

/-- The elements after the loop, and the reason of the failure that stopped it or the
empty text. -/
def decodeItems (v : Value) : List Decoder → ℕ → List LspValue → List LspValue × String
  | [], _, _ => ([], "")
  | dec :: decs, i, outs =>
    match v.getIndex i with
    | .error f => (outs, f.reason)
    | .ok e =>
      match dec e (outs.headD .null) with
      | .error f => (outs, f.reason)
      | .ok x =>
        let r := decodeItems v decs (i + 1) outs.tail
        (x :: r.1, r.2)

def decodeTuple (decs : List Decoder) : Decoder := fun v out =>
  if v.kind ≠ .array then .error ⟨"JSON value is not an array"⟩
  else if v.count ≠ decs.length then .error ⟨"JSON array does not match tuple length"⟩
  else
    let r := decodeItems v decs 0 out.elements
    if r.2 = "" then .ok (.tuple r.1) else .error ⟨r.2⟩

/-- One round of the loop over the member names: decode into `out[name]`. -/
def decodeEntry (dec : Decoder) (fresh : LspValue) (v : Value)
    (es : List (String × LspValue)) (name : String) : Result (List (String × LspValue)) := do
  let x ← dec (← v.get name) ((List.lookup name es).getD fresh)
  return OrderedEntries.assign name x es

def decodeMap (dec : Decoder) (fresh : LspValue) : Decoder := fun v out =>
  if v.kind ≠ .object then .error ⟨"JSON value is not an object"⟩
  else do
    let names ← v.memberNames
    return .map (← names.foldlM (decodeEntry dec fresh v) out.entries)

/-- The first type, counted from `k`, that accepts the value. Each type is decoded into
an object of its own. -/
def tryTypes (v : Value) : ℕ → List (Decoder × LspValue) → Option LspValue
  | _, [] => none
  | k, (dec, fresh) :: types =>
    match dec v fresh with
    | .ok x => some (.oneOf k x)
    | .error _ => tryTypes v (k + 1) types

def decodeOneOf (types : List (Decoder × LspValue)) : Decoder := fun v _ =>
  match tryTypes v 0 types with
  | some x => .ok x
  | none => .error ⟨"no types matched the OneOf"⟩

/-- `MatchKind`. The tail of the message is literal text in the source. -/
def matchKind (v : Value) (want : String) : Result Unit := do
  let got ← v.getString "kind"
  if got ≠ want then
    .error ⟨"'kind' mismatch.\nGot '" ++ got ++ "'\nexpected ' + std:string(want) +'"⟩
  else .ok ()

section Structures

variable (dec : LspType → Decoder) (fresh : LspType → LspValue)

/-- An Optional property that is absent keeps what the output held. -/
def decodeProperty (p : Property) : Decoder := fun v out =>
  if p.optional then
    if v.has p.jsonName then do
      let x ← dec p.type (← v.get p.jsonName) (fresh p.type)
      return .present x
    else .ok out.asOptional
  else do dec p.type (← v.get p.jsonName) out

def decodeProperties (v : Value) : List Property → List LspValue → Result (List LspValue)
  | [], _ => .ok []
  | p :: ps, outs => do
    let x ← decodeProperty dec fresh p v (outs.headD .null)
    let xs ← decodeProperties v ps outs.tail
    return x :: xs

def decodeKind (v : Value) : Option String → Result Unit
  | none => .ok ()
  | some k => matchKind v k

mutual

def decodeStructure : Structure → Decoder
  | .mk kind ps bs, v, out =>
    if v.kind ≠ .object then .error ⟨"value is not object"⟩
    else do
      decodeKind v kind
      let ms ← decodeProperties dec fresh v ps out.members
      let ss ← decodeBases v bs out.bases
      return .struct ms ss

def decodeBases (v : Value) : List Structure → List LspValue → Result (List LspValue)
  | [], _ => .ok []
  | b :: bs, outs => do
    let s ← decodeStructure b v (outs.headD .null)
    let ss ← decodeBases v bs outs.tail
    return s :: ss

end

end Structures

section Layers

variable (env : Declarations) (dec : LspType → Decoder)

/-- The types of `LSPAny` with the decoders of a layer. -/
def lspAnyTypes : List (Decoder × LspValue) :=
  [(decodeMap (dec .lspAny) (env.default .lspAny), env.default (.map .lspAny)),
    (decodeVector (dec .lspAny) (env.default .lspAny), env.default (.vector .lspAny)),
    (decodeString, env.default .string), (decodeInteger, env.default .integer),
    (decodeUinteger, env.default .uinteger), (decodeDecimal, env.default .decimal),
    (decodeBoolean, env.default .boolean), (decodeNull, env.default .null)]

mutual

/-- The overload selected by a type, given the decoders of what a JSON value contains.
Only a `OneOf` hands the JSON value itself on. -/
def decodeLayer : LspType → Decoder
  | .null => decodeNull
  | .boolean => decodeBoolean
  | .integer => decodeInteger
  | .uinteger => decodeUinteger
  | .decimal => decodeDecimal
  | .string => decodeString
  | .enumeration e => decodeEnumeration e
  | .vector t => decodeVector (dec t) (env.default t)
  | .tuple ts => decodeTuple (ts.map dec)
  | .map t => decodeMap (dec t) (env.default t)
  | .oneOf ts => decodeOneOf (decodeLayers ts)
  | .reference n => decodeStructure dec env.default (env.find n)
  | .lspAny => decodeOneOf (lspAnyTypes env dec)

def decodeLayers : List LspType → List (Decoder × LspValue)
  | [] => []
  | t :: ts => (decodeLayer t, env.default t) :: decodeLayers ts

end

end Layers

def decodeDepth (env : Declarations) : ℕ → LspType → Decoder
  | 0 => fun _ _ _ => .error ⟨""⟩
  | n + 1 => decodeLayer env (decodeDepth env n)

/-- `Decode` of a JSON value into an output of a type. -/
def decode (env : Declarations) (t : LspType) (v : Value) (out : LspValue) : Result LspValue :=
  decodeDepth env (v.depth + 1) t v out

section Recursion

/-! The decoders of a layer are only used on what the JSON value contains, so its
depth is enough and `decode` satisfies the recursive equations of the overloads. -/

theorem depth_le_depthElements {e : Value} {es : List Value} (h : e ∈ es) :
    e.depth ≤ Value.depthElements es := by
  induction es with
  | nil => simp at h
  | cons f es ih =>
    rcases List.mem_cons.mp h with rfl | h
    · exact le_max_left _ _
    · exact (ih h).trans (le_max_right _ _)

theorem depth_le_depthMembers {n : String} {m : Value} {ms : List (String × Value)}
    (h : (n, m) ∈ ms) : m.depth ≤ Value.depthMembers ms := by
  induction ms with
  | nil => simp at h
  | cons f ms ih =>
    obtain ⟨k, w⟩ := f
    rcases List.mem_cons.mp h with h | h
    · cases h
      exact le_max_left _ _
    · exact (ih h).trans (le_max_right _ _)

theorem depth_getIndex {v e : Value} {i : ℕ} (h : v.getIndex i = .ok e) : e.depth < v.depth := by
  obtain ⟨es, rfl, hi⟩ := Value.getIndex_eq_ok.mp h
  exact Nat.lt_succ_of_le (depth_le_depthElements (List.mem_of_getElem? hi))

theorem depth_get {v m : Value} {n : String} (h : v.get n = .ok m) : m.depth < v.depth := by
  obtain ⟨ms, rfl, hn⟩ := Value.get_eq_ok.mp h
  exact Nat.lt_succ_of_le (depth_le_depthMembers (OrderedEntries.mem_of_lookup hn))

variable {env : Declarations} {dec dec' : LspType → Decoder} {v : Value}

/-- Two families of decoders that agree on what a JSON value contains. -/
def AgreeBelow (dec dec' : LspType → Decoder) (v : Value) : Prop :=
  ∀ t c out, c.depth < v.depth → dec t c out = dec' t c out

theorem AgreeBelow.index (h : AgreeBelow dec dec' v) (t : LspType) (i : ℕ) (out : LspValue) :
    (do dec t (← v.getIndex i) out) = (do dec' t (← v.getIndex i) out) := by
  cases hi : v.getIndex i with
  | error f => rfl
  | ok e => exact h t e out (depth_getIndex hi)

theorem AgreeBelow.member (h : AgreeBelow dec dec' v) (t : LspType) (n : String) (out : LspValue) :
    (do dec t (← v.get n) out) = (do dec' t (← v.get n) out) := by
  cases hn : v.get n with
  | error f => rfl
  | ok m => exact h t m out (depth_get hn)

theorem decodeVector_congr (h : AgreeBelow dec dec' v) (t : LspType) (fresh out : LspValue) :
    decodeVector (dec t) fresh v out = decodeVector (dec' t) fresh v out := by
  simp only [decodeVector, h.index]

theorem decodeMap_congr (h : AgreeBelow dec dec' v) (t : LspType) (fresh out : LspValue) :
    decodeMap (dec t) fresh v out = decodeMap (dec' t) fresh v out := by
  have he : decodeEntry (dec t) fresh v = decodeEntry (dec' t) fresh v := by
    funext es n
    unfold decodeEntry
    cases hn : v.get n with
    | error f => rfl
    | ok m =>
      have hm := h t m ((List.lookup n es).getD fresh) (depth_get hn)
      simp only [bind, Except.bind, hm]
  simp only [decodeMap, he]

theorem decodeItems_congr (h : AgreeBelow dec dec' v) (ts : List LspType) (i : ℕ)
    (outs : List LspValue) :
    decodeItems v (ts.map dec) i outs = decodeItems v (ts.map dec') i outs := by
  induction ts generalizing i outs with
  | nil => rfl
  | cons t ts ih =>
    simp only [List.map_cons, decodeItems]
    cases hi : v.getIndex i with
    | error f => rfl
    | ok e => simp only [h t e _ (depth_getIndex hi), ih]

theorem decodeProperty_congr (h : AgreeBelow dec dec' v) (fresh : LspType → LspValue)
    (p : Property) (out : LspValue) :
    decodeProperty dec fresh p v out = decodeProperty dec' fresh p v out := by
  unfold decodeProperty
  cases hn : v.get p.jsonName with
  | error f => rfl
  | ok m =>
    have hd := depth_get hn
    simp only [bind, Except.bind, h p.type m _ hd]

theorem decodeProperties_congr (h : AgreeBelow dec dec' v) (fresh : LspType → LspValue)
    (ps : List Property) (outs : List LspValue) :
    decodeProperties dec fresh v ps outs = decodeProperties dec' fresh v ps outs := by
  induction ps generalizing outs with
  | nil => rfl
  | cons p ps ih => simp only [decodeProperties, decodeProperty_congr h, ih]

mutual

theorem decodeStructure_congr (h : AgreeBelow dec dec' v) (fresh : LspType → LspValue)
    (s : Structure) (out : LspValue) :
    decodeStructure dec fresh s v out = decodeStructure dec' fresh s v out := by
  cases s with
  | mk kind ps bs =>
    simp only [decodeStructure, decodeProperties_congr h, decodeBases_congr h fresh bs]

theorem decodeBases_congr (h : AgreeBelow dec dec' v) (fresh : LspType → LspValue)
    (bs : List Structure) (outs : List LspValue) :
    decodeBases dec fresh v bs outs = decodeBases dec' fresh v bs outs := by
  cases bs with
  | nil => rfl
  | cons b bs =>
    simp only [decodeBases, decodeStructure_congr h fresh b, decodeBases_congr h fresh bs]

end

theorem tryTypes_congr {types types' : List (Decoder × LspValue)} (k : ℕ)
    (h : types.map (fun d => (d.1 v d.2)) = types'.map (fun d => (d.1 v d.2))) :
    tryTypes v k types = tryTypes v k types' := by
  induction types generalizing types' k with
  | nil =>
    cases types' with
    | nil => rfl
    | cons _ _ => simp at h
  | cons d types ih =>
    cases types' with
    | nil => simp at h
    | cons d' types' =>
      simp only [List.map_cons, List.cons.injEq] at h
      simp only [tryTypes, h.1, ih (k + 1) h.2]

mutual

theorem decodeLayer_congr (h : AgreeBelow dec dec' v) (t : LspType) (out : LspValue) :
    decodeLayer env dec t v out = decodeLayer env dec' t v out := by
  cases t with
  | vector t => exact decodeVector_congr h t _ out
  | tuple ts => simp only [decodeLayer, decodeTuple, List.length_map, decodeItems_congr h]
  | map t => exact decodeMap_congr h t _ out
  | oneOf ts =>
    simp only [decodeLayer, decodeOneOf, tryTypes_congr 0 (decodeLayers_congr h ts)]
  | reference n => exact decodeStructure_congr h _ _ out
  | lspAny =>
    have ht : tryTypes v 0 (lspAnyTypes env dec) = tryTypes v 0 (lspAnyTypes env dec') :=
      tryTypes_congr 0 (by
        simp only [lspAnyTypes, List.map_cons, decodeMap_congr h, decodeVector_congr h])
    simp only [decodeLayer, decodeOneOf, ht]
  | _ => rfl

theorem decodeLayers_congr (h : AgreeBelow dec dec' v) (ts : List LspType) :
    (decodeLayers env dec ts).map (fun d => d.1 v d.2) =
      (decodeLayers env dec' ts).map (fun d => d.1 v d.2) := by
  cases ts with
  | nil => rfl
  | cons t ts =>
    simp only [decodeLayers, List.map_cons, decodeLayer_congr h t, decodeLayers_congr h ts]

end

theorem decodeDepth_eq {n m : ℕ} (hn : v.depth < n) (hm : v.depth < m) (t : LspType)
    (out : LspValue) : decodeDepth env n t v out = decodeDepth env m t v out := by
  induction n generalizing m t v out with
  | zero => omega
  | succ n ih =>
    cases m with
    | zero => omega
    | succ m =>
      exact decodeLayer_congr (fun u c o hc => ih (by omega) (by omega) u o) t out

theorem decodeDepth_eq_decode {n : ℕ} (hn : v.depth < n) (t : LspType) (out : LspValue) :
    decodeDepth env n t v out = decode env t v out :=
  decodeDepth_eq hn (Nat.lt_succ_self _) t out

/-- `Decode` satisfies its recursive equations. -/
theorem decode_eq (env : Declarations) (t : LspType) (v : Value) (out : LspValue) :
    decode env t v out = decodeLayer env (decode env) t v out :=
  decodeLayer_congr (fun u _ o hc => decodeDepth_eq_decode hc u o) t out

/-- To prove a property of every call of `Decode`, prove it of the overload of each type,
for a JSON value whose parts already have it. -/
theorem decode_induct {P : LspType → Value → LspValue → Result LspValue → Prop}
    (h : ∀ v, (∀ t c out, c.depth < v.depth → P t c out (decode env t c out)) →
      ∀ t out, P t v out (decodeLayer env (decode env) t v out)) (t : LspType) (v : Value)
    (out : LspValue) : P t v out (decode env t v out) := by
  induction hn : v.depth using Nat.strong_induction_on generalizing t v out with
  | _ n ih =>
    rw [decode_eq]
    exact h v (fun u c o hc => ih c.depth (hn ▸ hc) u c o rfl) t out

private theorem decodeLayers_eq (env : Declarations) (ts : List LspType) (v : Value) :
    (decodeLayers env (decode env) ts).map (fun d => d.1 v d.2) =
      (ts.map fun t => (decode env t, env.default t)).map (fun d => d.1 v d.2) := by
  induction ts with
  | nil => rfl
  | cons t ts ih => simp only [decodeLayers, List.map_cons, ih, ← decode_eq]

/-- A `OneOf` tries the overloads of its types on the same JSON value. -/
theorem decode_oneOf (env : Declarations) (ts : List LspType) (v : Value) (out : LspValue) :
    decode env (.oneOf ts) v out =
      decodeOneOf (ts.map fun t => (decode env t, env.default t)) v out := by
  rw [decode_eq]
  simp only [decodeLayer, decodeOneOf, tryTypes_congr 0 (decodeLayers_eq env ts v)]

/-- `LSPAny` decodes as the `OneOf` that it derives from. -/
theorem decode_lspAny (env : Declarations) (v : Value) (out : LspValue) :
    decode env .lspAny v out = decode env (.oneOf lspAnyItems) v out := by
  rw [decode_eq, decode_eq]
  rfl

end Recursion

end Langsvr.Lsp
