import Langsvr.EncodingRules
import Langsvr.GeneratedObjects
import Langsvr.ValueEquality

/-!
# The generated code encodes as the codec

With enough nested calls `Encode` yields what the codec yields for every value of a type.
-/

namespace Langsvr

open Filter (Eventually atTop)
open Json (Value Member)
open Lsp (LspType LspValue Encoder Declarations HasType Slot)
open RecursionLimits

namespace Lsp

theorem depth_slots (s : Structure) {x : LspValue} {n : String} {t : LspType} {y : LspValue}
    (h : (n, Slot.value t y) ∈ s.slots x) : y.depth < x.depth := by
  replace h := contributes_of_mem s h
  generalize hslot : Slot.value t y = slot at h
  induction h with
  | kind => cases hslot
  | @member kind ps bs ms ss p x y hp hm hy =>
    cases hslot
    have hle := LspValue.depth_le_depthList hm
    rcases hy with rfl | rfl
    · simp only [LspValue.depth]
      omega
    · simp only [LspValue.depth] at hle ⊢
      omega
  | @base kind ps bs ms ss b s n slot hb hs hc ih =>
    have hle := LspValue.depth_le_depthList hs
    have hlt := ih hslot
    simp only [LspValue.depth]
    omega

end Lsp

namespace CppUnit

section Statements

variable {u : CppUnit} {c : CppStructure} {kind : Option String} {ps : List Lsp.Property}
  {bs : List Lsp.Structure} {names : List String} {enc : CppType → Encoder}
  {enc' : LspType → Encoder}

/-- A value of the shape of the definition lists the members and bases of an object. -/
theorem dataMembers_eq {ms : List (Bool × CppType × String)}
    (hms : List.Forall₂ (fun m p => m.1 = p.optional ∧ u.Stands m.2.1 p.type) ms ps)
    {xs : List LspValue} (hx : Lsp.Structure.MembersShaped ps xs) :
    CppStructure.dataMembers ms xs = xs := by
  induction hms generalizing xs with
  | nil =>
    cases xs with
    | nil => rfl
    | cons x xs => exact hx.elim
  | @cons m p ms ps hm hms ih =>
    cases xs with
    | nil => exact hx.elim
    | cons x xs =>
      obtain ⟨hx, hxs⟩ := hx
      rw [CppStructure.dataMembers, List.tail_cons, List.headD_cons, ih hxs, hm.1]
      cases ho : p.optional with
      | false => rfl
      | true =>
        rcases hx ho with rfl | ⟨y, rfl⟩
        · rfl
        · rfl

theorem baseObjects_eq {ts : List CppType} {xs : List LspValue} (hl : ts.length = xs.length) :
    CppStructure.baseObjects ts xs = xs := by
  induction ts generalizing xs with
  | nil =>
    cases xs with
    | nil => rfl
    | cons x xs => cases hl
  | cons t ts ih =>
    cases xs with
    | nil => cases hl
    | cons x xs =>
      rw [CppStructure.baseObjects, List.tail_cons, List.headD_cons, ih (Nat.succ.inj hl)]

theorem length_of_basesShaped {ss : List LspValue} (h : Lsp.Structure.BasesShaped bs ss) :
    bs.length = ss.length := by
  induction bs generalizing ss with
  | nil =>
    cases ss with
    | nil => rfl
    | cons s ss => exact h.elim
  | cons b bs ih =>
    cases ss with
    | nil => exact h.elim
    | cons s ss => rw [List.length_cons, List.length_cons, ih h.2]

theorem object_eq (hfields : u.Fields c kind ps names) (hl : names.length = bs.length)
    {ms ss : List LspValue} (hx : (Lsp.Structure.mk kind ps bs).Shaped (.struct ms ss)) :
    c.object (.struct ms ss) = .struct ms ss := by
  have hbases : c.bases.length = ss.length := by
    rw [hfields.bases, List.length_map, hl, length_of_basesShaped hx.2]
  rw [CppStructure.object, LspValue.members, LspValue.bases, dataMembers_eq hfields.members hx.1,
    baseObjects_eq hbases]

variable {encBase : String → LspValue → List Member → Outcome (List Member)}

theorem runEncodeBlocks_append (x : LspValue) (blocks blocks' : List EncodeBlock)
    (members : List Member) :
    c.runEncodeBlocks enc encBase x (blocks ++ blocks') members =
      (c.runEncodeBlocks enc encBase x blocks members).andThen
        (c.runEncodeBlocks enc encBase x blocks') := by
  induction blocks generalizing members with
  | nil => rfl
  | cons block blocks ih =>
    rw [List.cons_append, CppStructure.runEncodeBlocks, CppStructure.runEncodeBlocks,
      Outcome.andThen_assoc]
    congr 1
    funext members
    exact ih members

theorem run_encode_property (hdistinct : (c.members.map fun m => m.2.2).Nodup)
    (done : List (Bool × CppType × String)) {m : Bool × CppType × String}
    {ms : List (Bool × CppType × String)} (hc : c.members = done ++ m :: ms) {p : Lsp.Property}
    {xs : List LspValue} (hxs : xs.length = done.length) {x : LspValue}
    (henc : ∀ y, (p.jsonName, Slot.value p.type y) ∈ Lsp.Structure.propertySlot p x →
      enc m.2.1 y = enc' p.type y) (ys ss : List LspValue) (members : List Member) :
    c.runEncodeBlock enc encBase (.struct (xs ++ x :: ys) ss) (encodeBlock m p) members =
      (Lsp.encodeProperty enc' p x).andThen fun ms => .success (members ++ ms) := by
  have hindex : c.memberIndex m.2.2 = xs.length := (memberIndex_eq hdistinct hc).trans hxs.symm
  have htype : c.memberType xs.length = m.2.1 := hxs ▸ memberType_eq hc
  have hmember : LspValue.member (.struct (xs ++ x :: ys) ss) xs.length = x := by
    simp [LspValue.member, LspValue.members]
  cases hp : p.optional with
  | true =>
    rw [encodeBlock, if_pos hp]
    cases x with
    | present y =>
      have hy := henc y (by simp [Lsp.Structure.propertySlot, hp])
      simp only [CppStructure.runEncodeBlock, Lsp.encodeProperty, hp, if_true, hindex, htype,
        hmember, hy, Outcome.andThen_assoc, Outcome.andThen_success]
    | _ =>
      simp only [CppStructure.runEncodeBlock, Lsp.encodeProperty, hp, if_true, hindex, hmember,
        Outcome.andThen_success, List.append_nil]
  | false =>
    have hx := henc x (by simp [Lsp.Structure.propertySlot, hp])
    simp only [encodeBlock, Lsp.encodeProperty, hp, Bool.false_eq_true, if_false,
      CppStructure.runEncodeBlock, hindex, htype, hmember, hx, Outcome.andThen_assoc,
      Outcome.andThen_success]

theorem run_encode_properties (hdistinct : (c.members.map fun m => m.2.2).Nodup)
    (done : List (Bool × CppType × String)) {ms : List (Bool × CppType × String)}
    (hc : c.members = done ++ ms) {Q : LspType → LspValue → Prop}
    (hms : List.Forall₂ (fun m p => ∀ y, Q p.type y → enc m.2.1 y = enc' p.type y) ms ps)
    (xs : List LspValue) {ys : List LspValue} (hxs : xs.length = done.length)
    (hshape : Lsp.Structure.MembersShaped ps ys)
    (hq : ∀ n t y, (n, Slot.value t y) ∈ Lsp.Structure.propertySlots ps ys → Q t y)
    (ss : List LspValue) (members : List Member) :
    c.runEncodeBlocks enc encBase (.struct (xs ++ ys) ss) (List.zipWith encodeBlock ms ps) members =
      (Lsp.encodeProperties enc' ps ys).andThen fun own => .success (members ++ own) := by
  induction hms generalizing done xs ys members with
  | nil => simp [CppStructure.runEncodeBlocks, Lsp.encodeProperties]
  | @cons m p ms ps hm hms ih =>
    cases ys with
    | nil => exact hshape.elim
    | cons y ys =>
      have henc : ∀ z, (p.jsonName, Slot.value p.type z) ∈ Lsp.Structure.propertySlot p y →
          enc m.2.1 z = enc' p.type z := fun z hz => hm z (hq _ _ _ (List.mem_append_left _ hz))
      rw [List.zipWith_cons_cons, CppStructure.runEncodeBlocks,
        run_encode_property hdistinct done hc hxs henc, Lsp.encodeProperties,
        Outcome.andThen_assoc, Outcome.andThen_assoc]
      congr 1
      funext own
      have hrest := ih (done ++ [m]) (by simp [hc]) (xs ++ [y]) (by simp [hxs]) hshape.2
        (fun n t z hz => hq n t z (List.mem_append_right _ hz)) (members ++ own)
      rw [List.append_assoc, List.singleton_append] at hrest
      rw [Outcome.andThen_success, hrest, Outcome.andThen_assoc]
      congr 1
      funext rest
      rw [Outcome.andThen_success, List.append_assoc]

theorem run_encode_bases (hbases : c.bases = names.map .named) (hnodup : names.Nodup)
    (done : List String) {ns : List String} (hn : names = done ++ ns)
    {Q : LspType → LspValue → Prop}
    (hbs : List.Forall₂ (fun name b => ∀ s members, b.Shaped s →
      (∀ n t y, (n, Slot.value t y) ∈ b.slots s → Q t y) → encBase name s members =
        (Lsp.encodeMembers enc' b s).andThen fun own => .success (members ++ own)) ns bs)
    (xs : List LspValue) {ys : List LspValue} (hxs : xs.length = done.length)
    (hshape : Lsp.Structure.BasesShaped bs ys)
    (hq : ∀ n t y, (n, Slot.value t y) ∈ Lsp.Structure.baseSlots bs ys → Q t y)
    (ms : List LspValue) (members : List Member) :
    c.runEncodeBlocks enc encBase (.struct ms (xs ++ ys)) (ns.map .base) members =
      (Lsp.encodeBases enc' bs ys).andThen fun own => .success (members ++ own) := by
  induction hbs generalizing done xs ys members with
  | nil => simp [CppStructure.runEncodeBlocks, Lsp.encodeBases]
  | @cons name b ns bs hb hbs ih =>
    cases ys with
    | nil => exact hshape.elim
    | cons y ys =>
      have hindex : c.baseIndex name = xs.length := by
        apply baseIndex_eq hbases hnodup
        rw [hn, hxs]
        simp
      have hbase : LspValue.base (.struct ms (xs ++ y :: ys)) xs.length = y := by
        simp [LspValue.base, LspValue.bases]
      have hfirst := hb y members hshape.1 fun n t z hz => hq n t z (List.mem_append_left _ hz)
      rw [List.map_cons, CppStructure.runEncodeBlocks, CppStructure.runEncodeBlock, hindex, hbase,
        hfirst, Lsp.encodeBases, Outcome.andThen_assoc, Outcome.andThen_assoc]
      congr 1
      funext own
      have hrest := ih (done ++ [name]) (by simp [hn]) (xs ++ [y]) (by simp [hxs]) hshape.2
        (fun n t z hz => hq n t z (List.mem_append_right _ hz)) (members ++ own)
      rw [List.append_assoc, List.singleton_append] at hrest
      rw [Outcome.andThen_success, hrest, Outcome.andThen_assoc]
      congr 1
      funext rest
      rw [Outcome.andThen_success, List.append_assoc]

/-- The body of `EncodeMembers` adds the members that the codec adds for the definition. -/
theorem runEncodeBlocks_eq (hfields : u.Fields c kind ps names) {Q : LspType → LspValue → Prop}
    (hms : List.Forall₂ (fun m p => ∀ y, Q p.type y → enc m.2.1 y = enc' p.type y) c.members ps)
    (hbs : List.Forall₂ (fun name b => ∀ s members, b.Shaped s →
      (∀ n t y, (n, Slot.value t y) ∈ b.slots s → Q t y) → encBase name s members =
        (Lsp.encodeMembers enc' b s).andThen fun own => .success (members ++ own)) names bs)
    {x : LspValue} (hx : (Lsp.Structure.mk kind ps bs).Shaped x)
    (hq : ∀ n t y, (n, Slot.value t y) ∈ (Lsp.Structure.mk kind ps bs).slots x → Q t y)
    (members : List Member) :
    c.runEncodeBlocks enc encBase (c.object x) c.encodeMembers members =
      (Lsp.encodeMembers enc' (.mk kind ps bs) x).andThen fun own => .success (members ++ own) := by
  cases x with
  | struct ms ss =>
    have hkinds : c.runEncodeBlocks enc encBase (.struct ms ss) (kind.toList.map .kind) members =
        .success (members ++ Lsp.kindMember kind) := by
      cases kind with
      | none => simp [CppStructure.runEncodeBlocks, Lsp.kindMember]
      | some k =>
        simp [CppStructure.runEncodeBlocks, CppStructure.runEncodeBlock, Lsp.kindMember]
    simp only [Lsp.Structure.slots, List.mem_append] at hq
    have hproperties : ∀ members, c.runEncodeBlocks enc encBase (.struct ms ss)
        (List.zipWith encodeBlock c.members ps) members =
          (Lsp.encodeProperties enc' ps ms).andThen fun own => .success (members ++ own) :=
      run_encode_properties hfields.distinct [] rfl hms [] rfl hx.1
        (fun n t y hy => hq n t y (.inl (.inr hy))) ss
    have hinherited : ∀ members, c.runEncodeBlocks enc encBase (.struct ms ss)
        (names.map .base) members =
          (Lsp.encodeBases enc' bs ss).andThen fun own => .success (members ++ own) :=
      run_encode_bases hfields.bases hfields.basesDistinct [] rfl hbs [] rfl hx.2
        (fun n t y hy => hq n t y (.inr hy)) ms
    rw [object_eq hfields hbs.length_eq hx, hfields.encodeMembers, runEncodeBlocks_append,
      runEncodeBlocks_append, hkinds, Outcome.andThen_success, hproperties, Lsp.encodeMembers,
      Outcome.andThen_assoc, Outcome.andThen_assoc]
    congr 1
    funext own
    rw [Outcome.andThen_success, hinherited, Outcome.andThen_assoc]
    congr 1
    funext inherited
    simp
  | _ => exact hx.elim

end Statements

section Names

variable {u : CppUnit} {env : Declarations} (h : u.Compiles env)
include h

theorem Compiles.encode_alias {name : String} {ct : CppType} (ha : (name, ct) ∈ u.program.aliases)
    (n : ℕ) : u.encode (n + 1) (.named name) = u.encode n ct := by
  simp only [encode, h.find_alias ha]

theorem Compiles.encode_structure {c : CppStructure} (hc : c ∈ u.program.structures) (n : ℕ)
    (x : LspValue) : u.encode (n + 1) (.named c.name) x =
      (c.runEncodeBlocks (u.encode n) (u.encodeMembers n) (c.object x) c.encodeMembers []).andThen
        fun members => .success (Json.Builder.object members) := by
  simp only [encode, h.find_structure hc]

theorem Compiles.encodeMembers_alias {name other : String}
    (ha : (name, CppType.named other) ∈ u.program.aliases) (n : ℕ) :
    u.encodeMembers (n + 1) name = u.encodeMembers n other := by
  simp only [encodeMembers, h.find_alias ha]

theorem Compiles.encodeMembers_structure {c : CppStructure} (hc : c ∈ u.program.structures) (n : ℕ)
    (x : LspValue) : u.encodeMembers (n + 1) c.name x =
      c.runEncodeBlocks (u.encode n) (u.encodeMembers n) (c.object x) c.encodeMembers := by
  simp only [encodeMembers, h.find_structure hc]

end Names

section Encoding

variable {u : CppUnit} {env : Declarations}

/-- `Encode` computes what the codec computes, for the values of a type up to some depth. -/
def EncodesBelow (u : CppUnit) (env : Declarations) (d : ℕ) (ct : CppType) (t : LspType) (n : ℕ) :
    Prop :=
  ∀ x : LspValue, x.depth < d → HasType env t x → u.encode n ct x = Lsp.encode env t x

section Layers

variable {d : ℕ}

theorem encodesBelow_vector {ct : CppType} {t : LspType}
    (henc : ∀ᶠ n in atTop, u.EncodesBelow env d ct t n) :
    ∀ᶠ n in atTop, u.EncodesBelow env (d + 1) (.vector ct) (.vector t) n := by
  refine eventually_succ henc fun n hn x hx hxt => ?_
  rw [Lsp.encode_eq]
  cases hxt with
  | @vector t xs hxs =>
    have helements : ∀ y ∈ xs, u.encode n ct y = Lsp.encode env t y := by
      intro y hy
      have hlt := LspValue.depth_lt_vector hy
      exact hn y (by omega) (hxs y hy)
    rw [encode, Lsp.encodeLayer, Lsp.encodeVector, Lsp.encodeVector,
      Lsp.encodeElements_congr helements]

theorem encodesBelow_map {key ct : CppType} {t : LspType}
    (henc : ∀ᶠ n in atTop, u.EncodesBelow env d ct t n) :
    ∀ᶠ n in atTop, u.EncodesBelow env (d + 1) (.map key ct) (.map t) n := by
  refine eventually_succ henc fun n hn x hx hxt => ?_
  rw [Lsp.encode_eq]
  cases hxt with
  | @map t es ho hes =>
    have hentries : ∀ e ∈ es, u.encode n ct e.2 = Lsp.encode env t e.2 := by
      intro e he
      have hlt := LspValue.depth_lt_map he
      exact hn e.2 (by omega) (hes e he)
    rw [encode, Lsp.encodeLayer, Lsp.encodeMap, Lsp.encodeMap, Lsp.encodeEntries_congr hentries]

private theorem encodeItems_zip {α β : Type} {f : α → Encoder} {g : β → Encoder} {as : List α}
    {bs : List β} {xs : List LspValue} (hl : as.length = bs.length)
    (h : ∀ (i : ℕ) a b x, as[i]? = some a → bs[i]? = some b → xs[i]? = some x → f a x = g b x) :
    Lsp.encodeItems (as.map f) xs = Lsp.encodeItems (bs.map g) xs := by
  induction as generalizing bs xs with
  | nil =>
    cases bs with
    | nil => rfl
    | cons b bs => cases hl
  | cons a as ih =>
    cases bs with
    | nil => cases hl
    | cons b bs =>
      cases xs with
      | nil => rfl
      | cons x xs =>
        have hx := h 0 a b x rfl rfl rfl
        have hrest := ih (Nat.succ.inj hl) fun i a' b' x' ha hb hx => h (i + 1) a' b' x' ha hb hx
        simp only [List.map_cons, Lsp.encodeItems, hx, hrest]

theorem encodesBelow_tuple {cts : List CppType} {ts : List LspType} (hl : cts.length = ts.length)
    (henc : ∀ p ∈ cts.zip ts, ∀ᶠ n in atTop, u.EncodesBelow env d p.1 p.2 n) :
    ∀ᶠ n in atTop, u.EncodesBelow env (d + 1) (.tuple cts) (.tuple ts) n := by
  refine eventually_succ (eventually_forall_mem henc) fun n hn x hx hxt => ?_
  rw [Lsp.encode_eq]
  cases hxt with
  | @tuple ts xs hlx hxs =>
    have hitems : Lsp.encodeItems (cts.map (u.encode n)) xs =
        Lsp.encodeItems (ts.map (Lsp.encode env)) xs := by
      apply encodeItems_zip hl
      intro i ct t y hct ht hy
      have hle := LspValue.depth_le_depthList (List.mem_of_getElem? hy)
      simp only [LspValue.depth] at hx
      have hpair : (ct, t) ∈ cts.zip ts :=
        List.mem_of_getElem? (List.getElem?_zip_eq_some.mpr ⟨hct, ht⟩)
      have htyped : (t, y) ∈ ts.zip xs :=
        List.mem_of_getElem? (List.getElem?_zip_eq_some.mpr ⟨ht, hy⟩)
      exact hn _ hpair y (by omega) (hxs _ htyped)
    rw [encode, Lsp.encodeLayer, Lsp.encodeTuple, Lsp.encodeTuple, hitems]

private theorem encodeOneOf_eq {cts : List CppType} {ts : List LspType}
    (hl : cts.length = ts.length) {n : ℕ} {k : ℕ} {t : LspType} {y : LspValue}
    (hk : ts[k]? = some t) (hn : ∀ p ∈ cts.zip ts, u.EncodesBelow env d p.1 p.2 n)
    (hy : y.depth < d) (hyt : HasType env t y) :
    Lsp.encodeOneOf (cts.map (u.encode n)) (.oneOf k y) = Lsp.encode env t y := by
  obtain ⟨hlt, rfl⟩ := List.getElem?_eq_some_iff.mp hk
  have hmem := ListRelations.mem_zip_getElem hl hlt
  have hkl : k < cts.length := by omega
  have hct : cts[k]? = some cts[k] := List.getElem?_eq_getElem hkl
  simp only [Lsp.encodeOneOf, List.getElem?_map, hct, Option.map_some]
  exact hn _ hmem y hy hyt

theorem encodesBelow_oneOf {cts : List CppType} {ts : List LspType} (hl : cts.length = ts.length)
    (henc : ∀ p ∈ cts.zip ts, ∀ᶠ n in atTop, u.EncodesBelow env d p.1 p.2 n) :
    ∀ᶠ n in atTop, u.EncodesBelow env (d + 1) (.oneOf cts) (.oneOf ts) n := by
  refine eventually_succ (eventually_forall_mem henc) fun n hn x hx hxt => ?_
  cases hxt with
  | oneOfEmpty =>
    rw [Lsp.encode_eq]
    rfl
  | @oneOf ts k t y hk hyt =>
    simp only [LspValue.depth] at hx
    rw [Lsp.encode_oneOf hk, encode]
    exact encodeOneOf_eq hl hk hn (by omega) hyt

theorem encodesBelow_lspAny (h : u.Compiles env)
    (henc : ∀ ct t, u.Stands ct t → ∀ᶠ n in atTop, u.EncodesBelow env d ct t n) {ct : CppType}
    (ha : ("LSPAny", ct) ∈ u.program.aliases) :
    ∀ᶠ n in atTop, u.EncodesBelow env (d + 1) (.named "LSPAny") .lspAny n := by
  obtain ⟨rfl, hstands⟩ := h.lspAny_stands ha
  have hall : ∀ᶠ n in atTop, ∀ p ∈ lspAnyTypes.zip Lsp.lspAnyItems,
      u.EncodesBelow env d p.1 p.2 n :=
    eventually_forall_mem fun p hp => henc _ _ (hstands p hp)
  have honeOf : ∀ᶠ n in atTop, u.EncodesBelow env (d + 1) (.oneOf lspAnyTypes) .lspAny n := by
    refine eventually_succ hall fun n hn x hx hxt => ?_
    cases hxt with
    | lspAnyEmpty =>
      rw [Lsp.encode_eq]
      rfl
    | @lspAny k t y hk hyt =>
      simp only [LspValue.depth] at hx
      rw [Lsp.encode_lspAny hk, encode]
      exact encodeOneOf_eq rfl hk hn (by omega) hyt
  refine eventually_succ honeOf fun n hn x hx hxt => ?_
  rw [h.encode_alias ha]
  exact hn x hx hxt

/-- What a structure value contributes has its type and lies below some depth. -/
def Contributed (env : Declarations) (d : ℕ) (t : LspType) (y : LspValue) : Prop :=
  HasType env t y ∧ y.depth < d

mutual

private theorem encode_implements (h : u.Compiles env)
    (henc : ∀ ct t, u.Stands ct t → ∀ᶠ n in atTop, u.EncodesBelow env d ct t n)
    (s : Lsp.Structure) {c : CppStructure} (hc : u.Implements s c) :
    ∀ᶠ n in atTop, ∀ x, s.Shaped x →
      (∀ m t y, (m, Slot.value t y) ∈ s.slots x → Contributed env d t y) → ∀ members,
        c.runEncodeBlocks (u.encode n) (u.encodeMembers n) (c.object x) c.encodeMembers members =
          (Lsp.encodeMembers (Lsp.encode env) s x).andThen fun own =>
            .success (members ++ own) := by
  cases s with
  | mk kind ps bs =>
    obtain ⟨names, hfields, hbases⟩ := hc
    obtain ⟨hl, hms⟩ := List.forall₂_iff_zip.mp hfields.members
    have hmembers : ∀ᶠ n in atTop, ∀ q ∈ c.members.zip ps,
        u.EncodesBelow env d q.1.2.1 q.2.type n :=
      eventually_forall_mem fun q hq => henc _ _ (hms hq).2
    filter_upwards [hmembers, encode_bases h henc bs hbases] with n hn hbs x hx hslots members
    refine runEncodeBlocks_eq hfields (List.forall₂_iff_zip.mpr ⟨hl, fun {m p} hq y hy => ?_⟩) hbs
      hx hslots members
    exact hn _ hq y hy.2 hy.1

private theorem encode_bases (h : u.Compiles env)
    (henc : ∀ ct t, u.Stands ct t → ∀ᶠ n in atTop, u.EncodesBelow env d ct t n)
    (bs : List Lsp.Structure) {names : List String} (hbs : u.ImplementsBases bs names) :
    ∀ᶠ n in atTop, List.Forall₂ (fun name b => ∀ s members, b.Shaped s →
      (∀ m t y, (m, Slot.value t y) ∈ b.slots s → Contributed env d t y) →
        u.encodeMembers n name s members = (Lsp.encodeMembers (Lsp.encode env) b s).andThen
          fun own => .success (members ++ own)) names bs := by
  cases bs with
  | nil =>
    cases names with
    | nil => exact .of_forall fun n => .nil
    | cons name names => exact hbs.elim
  | cons b bs =>
    cases names with
    | nil => exact hbs.elim
    | cons name names =>
      obtain ⟨⟨c, hc, hbc⟩, hbs⟩ := hbs
      have hname : ∀ᶠ n in atTop, ∀ s members, b.Shaped s →
          (∀ m t y, (m, Slot.value t y) ∈ b.slots s → Contributed env d t y) →
            u.encodeMembers n name s members = (Lsp.encodeMembers (Lsp.encode env) b s).andThen
              fun own => .success (members ++ own) := by
        refine eventually_denotes (Q := fun name n => ∀ s members, b.Shaped s →
          (∀ m t y, (m, Slot.value t y) ∈ b.slots s → Contributed env d t y) →
            u.encodeMembers n name s members = (Lsp.encodeMembers (Lsp.encode env) b s).andThen
              fun own => .success (members ++ own)) hc
          (fun a other n ha hn s members hs hslots => ?_) fun hmem => ?_
        · rw [h.encodeMembers_alias ha]
          exact hn s members hs hslots
        · refine eventually_succ (encode_implements h henc b hbc) fun n hn s members hs hslots => ?_
          rw [h.encodeMembers_structure hmem]
          exact hn s hs hslots members
      filter_upwards [hname, encode_bases h henc bs hbs] with n hn hns
      exact .cons hn hns

end

theorem encodesBelow_structure (h : u.Compiles env)
    (henc : ∀ ct t, u.Stands ct t → ∀ᶠ n in atTop, u.EncodesBelow env d ct t n) {c : CppStructure}
    (hc : c ∈ u.program.structures) :
    ∀ᶠ n in atTop, u.EncodesBelow env (d + 1) (.named c.name) (.reference c.name) n := by
  have hbody := encode_implements h henc _ (h.structures c hc).2
  refine eventually_succ hbody fun n hn x hx hxt => ?_
  rw [h.encode_structure hc, Lsp.encode_eq, Lsp.encodeLayer, Lsp.encodeStructure]
  cases hxt with
  | reference hs hslots =>
    have hcontributed : ∀ m t y, (m, Slot.value t y) ∈ (env.find c.name).slots x →
        Contributed env d t y := by
      intro m t y hy
      have hlt := Lsp.depth_slots _ hy
      exact ⟨hslots m t y hy, by omega⟩
    rw [hn x hs hcontributed, Outcome.andThen_assoc]
    rfl

end Layers

/-- Generated code that compiles to declarations of the codec encodes as the codec does. -/
theorem encodesBelow (h : u.Compiles env) (d : ℕ) {ct : CppType} {t : LspType}
    (ht : u.Stands ct t) : ∀ᶠ n in atTop, u.EncodesBelow env d ct t n := by
  induction d generalizing ct t with
  | zero => exact .of_forall fun n x hx => by omega
  | succ d ih =>
    have henc : ∀ ct t, u.Stands ct t → ∀ᶠ n in atTop, u.EncodesBelow env d ct t n :=
      fun ct t => ih
    induction ht with
    | vector ht _ => exact encodesBelow_vector (henc _ _ ht)
    | map _ ht _ _ => exact encodesBelow_map (henc _ _ ht)
    | tuple hl hts _ => exact encodesBelow_tuple hl fun p hp => henc _ _ (hts p hp)
    | oneOf hl hts _ => exact encodesBelow_oneOf hl fun p hp => henc _ _ (hts p hp)
    | typeAlias ha _ _ ih =>
      refine eventually_succ ih fun n hn x hx hxt => ?_
      rw [h.encode_alias ha]
      exact hn x hx hxt
    | lspAny ha => exact encodesBelow_lspAny h henc ha
    | declared hc => exact encodesBelow_structure h henc hc
    | @enumeration e he =>
      have hfind := h.find_enumeration he
      rw [Lsp.Enumeration.generated_name] at hfind
      refine eventually_of_succ fun n x hx hxt => ?_
      rw [Lsp.encode_eq, Lsp.encodeLayer, ← Lsp.encode_generated]
      simp only [encode, hfind]
    | _ => exact eventually_of_succ fun n x hx hxt => rfl

end Encoding

end CppUnit

end Langsvr
