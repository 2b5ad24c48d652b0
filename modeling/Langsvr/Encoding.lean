import Langsvr.CodecTypes

/-!
# Encoding

The overloads of `Encode`, one definition for each overload or template. A template
takes the encoders of its arguments. `encode` closes the recursion on the nesting
depth of the value.
-/

namespace Langsvr.Lsp

open Json (Value Member)

abbrev Encoder := LspValue → Outcome Value

def encodeNull : Encoder := fun _ => .success .nullValue

def encodeBoolean : Encoder
  | .boolean b => .success (.booleanValue b)
  | _ => .unset

def encodeInteger : Encoder
  | .integer i => .success (.intValue i)
  | _ => .unset

def encodeUinteger : Encoder
  | .uinteger u => .success (.uintValue u)
  | _ => .unset

def encodeDecimal : Encoder
  | .decimal d => .success (.realValue d)
  | _ => .unset

def encodeString : Encoder
  | .string s => .success (.stringValue s)
  | _ => .unset

/-- `Builder::Create` of an unsuffixed literal, which has a signed type if it fits. -/
def createLiteral (u : UInt64) : Value :=
  if u.toNat < 2 ^ 63 then .intValue (Int64.ofInt u.toNat) else .uintValue u

/-- The literals of the enumerators as JSON values. -/
def Enumerators.literals : Enumerators → List Value
  | .string vs => vs.map .stringValue
  | .integer vs => vs.map .intValue
  | .uinteger vs => vs.map createLiteral

def encodeEnumeration (e : Enumeration) : Encoder
  | .enumeration i =>
    match e.values.literals[i]? with
    | some v => .success v
    | none => .failure ⟨"invalid value for enum " ++ e.name⟩
  | _ => .unset

def encodeElements (enc : Encoder) : List LspValue → Outcome (List Value)
  | [] => .success []
  | x :: xs => (enc x).andThen fun v =>
      (encodeElements enc xs).andThen fun vs => .success (v :: vs)

def encodeVector (enc : Encoder) : Encoder
  | .vector xs => (encodeElements enc xs).andThen fun vs => .success (Json.Builder.array vs)
  | _ => .unset

/-- The values pushed before the first failure, and the reason of that failure or the
empty text. -/
def encodeItems : List Encoder → List LspValue → Outcome (List Value × String)
  | enc :: encs, x :: xs =>
    match enc x with
    | .success v => (encodeItems encs xs).andThen fun r => .success (v :: r.1, r.2)
    | .failure f => .success ([], f.reason)
    | .unset | .asserted => .asserted
  | _, _ => .success ([], "")

def encodeTuple (encs : List Encoder) : Encoder
  | .tuple xs => (encodeItems encs xs).andThen fun r =>
      if r.2 = "" then .success (Json.Builder.array r.1) else .failure ⟨r.2⟩
  | _ => .unset

def encodeEntries (enc : Encoder) : List (String × LspValue) → Outcome (List Member)
  | [] => .success []
  | (name, x) :: es => (enc x).andThen fun v =>
      (encodeEntries enc es).andThen fun ms => .success ((name, v) :: ms)

def encodeMap (enc : Encoder) : Encoder
  | .map es => (encodeEntries enc es).andThen fun ms => .success (Json.Builder.object ms)
  | _ => .unset

/-- A visit of an empty `OneOf` returns its default-constructed Result. -/
def encodeOneOf (encs : List Encoder) : Encoder
  | .oneOf k x =>
    match encs[k]? with
    | some enc => enc x
    | none => .unset
  | _ => .unset

section Structures

variable (enc : LspType → Encoder)

def kindMember : Option String → List Member
  | none => []
  | some k => [("kind", .stringValue k)]

def encodeProperty (p : Property) (x : LspValue) : Outcome (List Member) :=
  if p.optional then
    match x with
    | .present y => (enc p.type y).andThen fun v => .success [(p.jsonName, v)]
    | _ => .success []
  else (enc p.type x).andThen fun v => .success [(p.jsonName, v)]

def encodeProperties : List Property → List LspValue → Outcome (List Member)
  | p :: ps, x :: xs => (encodeProperty enc p x).andThen fun m =>
      (encodeProperties ps xs).andThen fun ms => .success (m ++ ms)
  | _, _ => .success []

mutual

/-- The members that `EncodeMembers` appends: the literal kind, the own properties,
then the members of each base. -/
def encodeMembers : Structure → LspValue → Outcome (List Member)
  | .mk kind ps bs, .struct ms ss => (encodeProperties enc ps ms).andThen fun own =>
      (encodeBases bs ss).andThen fun inherited =>
        .success (kindMember kind ++ own ++ inherited)
  | _, _ => .unset

def encodeBases : List Structure → List LspValue → Outcome (List Member)
  | b :: bs, s :: ss => (encodeMembers b s).andThen fun m =>
      (encodeBases bs ss).andThen fun ms => .success (m ++ ms)
  | _, _ => .success []

end

def encodeStructure (s : Structure) : Encoder := fun x =>
  (encodeMembers enc s x).andThen fun ms => .success (Json.Builder.object ms)

end Structures

/-- The overload selected by a type, given the encoders of what a value contains. -/
def encodeLayer (env : Declarations) (enc : LspType → Encoder) : LspType → Encoder
  | .null => encodeNull
  | .boolean => encodeBoolean
  | .integer => encodeInteger
  | .uinteger => encodeUinteger
  | .decimal => encodeDecimal
  | .string => encodeString
  | .enumeration e => encodeEnumeration e
  | .vector t => encodeVector (enc t)
  | .tuple ts => encodeTuple (ts.map enc)
  | .map t => encodeMap (enc t)
  | .oneOf ts => encodeOneOf (ts.map enc)
  | .reference n => encodeStructure enc (env.find n)
  | .lspAny => encodeOneOf (lspAnyItems.map enc)

def encodeDepth (env : Declarations) : ℕ → LspType → Encoder
  | 0 => fun _ _ => .unset
  | n + 1 => encodeLayer env (encodeDepth env n)

/-- `Encode` of a value of a type. -/
def encode (env : Declarations) (t : LspType) (x : LspValue) : Outcome Value :=
  encodeDepth env (x.depth + 1) t x

section Recursion

/-! The encoders of a layer are only used on what the value contains, so the depth of
the value is enough and `encode` satisfies the recursive equations of the overloads. -/

variable {enc enc' : LspType → Encoder}

theorem encodeElements_congr {e e' : Encoder} {xs : List LspValue}
    (h : ∀ x ∈ xs, e x = e' x) : encodeElements e xs = encodeElements e' xs := by
  induction xs with
  | nil => rfl
  | cons x xs ih =>
    have hx := h x (List.mem_cons_self ..)
    have ht := ih (fun y hy => h y (List.mem_cons_of_mem _ hy))
    simp only [encodeElements, hx, ht]

theorem encodeItems_congr {ts : List LspType} {xs : List LspValue}
    (h : ∀ t, ∀ x ∈ xs, enc t x = enc' t x) :
    encodeItems (ts.map enc) xs = encodeItems (ts.map enc') xs := by
  induction ts generalizing xs with
  | nil => rfl
  | cons t ts ih =>
    cases xs with
    | nil => rfl
    | cons x xs =>
      have hx := h t x (List.mem_cons_self ..)
      have ht := ih (fun u y hy => h u y (List.mem_cons_of_mem _ hy))
      simp only [List.map_cons, encodeItems, hx, ht]

theorem encodeEntries_congr {e e' : Encoder} {es : List (String × LspValue)}
    (h : ∀ p ∈ es, e p.2 = e' p.2) : encodeEntries e es = encodeEntries e' es := by
  induction es with
  | nil => rfl
  | cons p es ih =>
    obtain ⟨n, x⟩ := p
    have hx := h (n, x) (List.mem_cons_self ..)
    have ht := ih (fun q hq => h q (List.mem_cons_of_mem _ hq))
    simp only at hx
    simp only [encodeEntries, hx, ht]

theorem encodeOneOf_congr {ts : List LspType} {k : ℕ} {x : LspValue}
    (h : ∀ t, enc t x = enc' t x) :
    encodeOneOf (ts.map enc) (.oneOf k x) = encodeOneOf (ts.map enc') (.oneOf k x) := by
  simp only [encodeOneOf, List.getElem?_map]
  cases ts[k]? with
  | none => rfl
  | some t => exact h t

theorem encodeProperties_congr {ps : List Property} {xs : List LspValue} {d : ℕ}
    (h : ∀ t y, y.depth < d → enc t y = enc' t y) (hd : LspValue.depthList xs < d) :
    encodeProperties enc ps xs = encodeProperties enc' ps xs := by
  induction ps generalizing xs with
  | nil => rfl
  | cons p ps ih =>
    cases xs with
    | nil => rfl
    | cons x xs =>
      simp only [LspValue.depthList, max_lt_iff] at hd
      have hx : encodeProperty enc p x = encodeProperty enc' p x := by
        unfold encodeProperty
        split
        · split
          · next y =>
            rw [h p.type y (Nat.lt_of_succ_lt hd.1)]
          · rfl
        · rw [h p.type x hd.1]
      simp only [encodeProperties, hx, ih hd.2]

mutual

theorem encodeMembers_congr {s : Structure} {x : LspValue} {d : ℕ}
    (h : ∀ t y, y.depth < d → enc t y = enc' t y) (hd : x.depth ≤ d) :
    encodeMembers enc s x = encodeMembers enc' s x := by
  cases s with
  | mk kind ps bs =>
    cases x with
    | struct ms ss =>
      simp only [LspValue.depth, Nat.add_one_le_iff, max_lt_iff] at hd
      simp only [encodeMembers, encodeProperties_congr h hd.1,
        encodeBases_congr h hd.2.le]
    | _ => rfl

theorem encodeBases_congr {bs : List Structure} {ss : List LspValue} {d : ℕ}
    (h : ∀ t y, y.depth < d → enc t y = enc' t y) (hd : LspValue.depthList ss ≤ d) :
    encodeBases enc bs ss = encodeBases enc' bs ss := by
  cases bs with
  | nil => rfl
  | cons b bs =>
    cases ss with
    | nil => rfl
    | cons s ss =>
      simp only [LspValue.depthList, max_le_iff] at hd
      simp only [encodeBases, encodeMembers_congr h hd.1, encodeBases_congr h hd.2]

end

theorem encodeLayer_congr (env : Declarations) {t : LspType} {x : LspValue}
    (h : ∀ u y, y.depth < x.depth → enc u y = enc' u y) :
    encodeLayer env enc t x = encodeLayer env enc' t x := by
  have hvector : ∀ {xs : List LspValue}, x.depth = LspValue.depthList xs + 1 →
      ∀ u, ∀ y ∈ xs, enc u y = enc' u y := fun hd u y hy =>
    h u y (hd ▸ Nat.lt_succ_of_le (LspValue.depth_le_depthList hy))
  cases t with
  | vector t =>
    cases x with
    | vector xs => simp only [encodeLayer, encodeVector, encodeElements_congr (hvector rfl t)]
    | _ => rfl
  | tuple ts =>
    cases x with
    | tuple xs => simp only [encodeLayer, encodeTuple, encodeItems_congr (hvector rfl)]
    | _ => rfl
  | map t =>
    cases x with
    | map es =>
      have he : ∀ p ∈ es, enc t p.2 = enc' t p.2 := fun p hp =>
        h t p.2 (Nat.lt_succ_of_le (LspValue.depth_le_depthEntries hp))
      simp only [encodeLayer, encodeMap, encodeEntries_congr he]
    | _ => rfl
  | oneOf ts =>
    cases x with
    | oneOf k y => exact encodeOneOf_congr (fun u => h u y (Nat.lt_succ_self _))
    | _ => rfl
  | lspAny =>
    cases x with
    | oneOf k y => exact encodeOneOf_congr (fun u => h u y (Nat.lt_succ_self _))
    | _ => rfl
  | reference n => simp only [encodeLayer, encodeStructure, encodeMembers_congr h le_rfl]
  | _ => rfl

theorem encodeDepth_eq (env : Declarations) {n m : ℕ} {t : LspType} {x : LspValue}
    (hn : x.depth < n) (hm : x.depth < m) : encodeDepth env n t x = encodeDepth env m t x := by
  induction n generalizing m t x with
  | zero => omega
  | succ n ih =>
    cases m with
    | zero => omega
    | succ m => exact encodeLayer_congr env (fun u y hy => ih (by omega) (by omega))

/-- `Encode` satisfies its recursive equations. -/
theorem encode_eq (env : Declarations) (t : LspType) (x : LspValue) :
    encode env t x = encodeLayer env (encode env) t x :=
  encodeLayer_congr env (fun _ _ hy => encodeDepth_eq env hy (Nat.lt_succ_self _))

end Recursion

end Langsvr.Lsp
