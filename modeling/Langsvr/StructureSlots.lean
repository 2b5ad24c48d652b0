import Langsvr.DecodingOutputs
import Langsvr.Encoding
import Mathlib.Data.List.Forall2
import Mathlib.Data.List.Perm.Basic

/-!
# Structures as lists of slots

A structure value is flattened into the members that it contributes, those of its
bases included. Encoding writes the slots one after the other. Decoding succeeds
with a given value exactly when every slot can be read back and every absent
property is missing.
-/

namespace Langsvr.Lsp

open Json (Value Member)
open LspValue (Blank BlankList)

def encodeSlot (enc : LspType → Encoder) : Slot → Outcome Value
  | .kind k => .success (.stringValue k)
  | .value t x => enc t x

def encodeSlots (enc : LspType → Encoder) : List (String × Slot) → Outcome (List Member)
  | [] => .success []
  | (n, s) :: ss => (encodeSlot enc s).andThen fun v =>
      (encodeSlots enc ss).andThen fun ms => .success ((n, v) :: ms)

section Encode

variable {enc : LspType → Encoder}

def Written (enc : LspType → Encoder) : List (String × Slot) → List Member → Prop :=
  List.Forall₂ fun s w => w.1 = s.1 ∧ encodeSlot enc s.2 = .success w.2

theorem encodeSlots_eq_success {ss : List (String × Slot)} {ws : List Member} :
    encodeSlots enc ss = .success ws ↔ Written enc ss ws := by
  induction ss generalizing ws with
  | nil => simp [encodeSlots, Written, eq_comm]
  | cons s ss ih =>
    obtain ⟨n, s⟩ := s
    unfold Written at ih ⊢
    simp only [encodeSlots, Outcome.andThen_eq_success, ih, Outcome.success.injEq]
    constructor
    · intro h
      obtain ⟨v, hv, ms, hms, rfl⟩ := h
      exact .cons ⟨rfl, hv⟩ hms
    · intro h
      cases h with
      | @cons _ w _ ws hw hws =>
        have hn : w.1 = n := hw.1
        exact ⟨w.2, hw.2, ws, hws, by rw [← hn]⟩

theorem encodeSlots_ne_unset (enc : LspType → Encoder) (ss : List (String × Slot)) :
    encodeSlots enc ss ≠ .unset := by
  cases ss with
  | nil => simp [encodeSlots]
  | cons s ss =>
    cases hs : encodeSlot enc s.2 <;> cases hss : encodeSlots enc ss <;>
      simp [encodeSlots, Outcome.andThen, hs, hss]

theorem encodeSlots_append (ss rs : List (String × Slot)) :
    encodeSlots enc (ss ++ rs) = (encodeSlots enc ss).andThen fun ms =>
      (encodeSlots enc rs).andThen fun ns => .success (ms ++ ns) := by
  induction ss with
  | nil =>
    have hu := encodeSlots_ne_unset enc rs
    cases h : encodeSlots enc rs <;> simp_all [encodeSlots, Outcome.andThen]
  | cons s ss ih =>
    obtain ⟨n, s⟩ := s
    simp only [List.cons_append, encodeSlots, ih]
    cases encodeSlot enc s <;> cases encodeSlots enc ss <;> cases encodeSlots enc rs <;>
      simp [Outcome.andThen]

theorem encodeSlots_kindSlots (kind : Option String) :
    encodeSlots enc (Structure.kindSlots kind) = .success (kindMember kind) := by
  cases kind <;> rfl

theorem encodeProperty_eq_slots (p : Property) (x : LspValue) :
    encodeProperty enc p x = encodeSlots enc (Structure.propertySlot p x) := by
  cases hp : p.optional with
  | false => simp [encodeProperty, Structure.propertySlot, hp, encodeSlots, encodeSlot, Outcome.andThen]
  | true =>
    cases x <;>
      simp [encodeProperty, Structure.propertySlot, hp, encodeSlots, encodeSlot, Outcome.andThen]

theorem encodeProperties_eq_slots (ps : List Property) (xs : List LspValue) :
    encodeProperties enc ps xs = encodeSlots enc (Structure.propertySlots ps xs) := by
  induction ps generalizing xs with
  | nil => cases xs <;> rfl
  | cons p ps ih =>
    cases xs with
    | nil => rfl
    | cons x xs =>
      rw [encodeProperties, Structure.propertySlots, encodeSlots_append, encodeProperty_eq_slots, ih]

mutual

/-- `EncodeMembers` appends the slots of the structure in order. -/
theorem encodeMembers_eq_slots (s : Structure) {x : LspValue} (hs : s.Shaped x) :
    encodeMembers enc s x = encodeSlots enc (s.slots x) := by
  cases s with
  | mk kind ps bs =>
    cases x with
    | struct ms ss =>
      rw [encodeMembers, Structure.slots, encodeSlots_append, encodeSlots_append,
        encodeSlots_kindSlots, encodeProperties_eq_slots, encodeBases_eq_slots bs hs.2]
      cases encodeSlots enc (Structure.propertySlots ps ms) <;>
        cases encodeSlots enc (Structure.baseSlots bs ss) <;>
        simp [Outcome.andThen]
    | _ => exact absurd hs (by simp [Structure.Shaped])

theorem encodeBases_eq_slots (bs : List Structure) {ss : List LspValue}
    (hs : Structure.BasesShaped bs ss) :
    encodeBases enc bs ss = encodeSlots enc (Structure.baseSlots bs ss) := by
  cases bs with
  | nil => cases ss <;> rfl
  | cons b bs =>
    cases ss with
    | nil => rfl
    | cons s ss =>
      rw [encodeBases, Structure.baseSlots, encodeSlots_append, encodeMembers_eq_slots b hs.1,
        encodeBases_eq_slots bs hs.2]

end

/-- A structure is encoded by writing its slots into one object. -/
theorem encodeStructure_eq_success {s : Structure} {x : LspValue} {v : Value} (hs : s.Shaped x) :
    encodeStructure enc s x = .success v ↔
      ∃ ws, Written enc (s.slots x) ws ∧ v = Json.Builder.object ws := by
  simp only [encodeStructure, Outcome.andThen_eq_success, encodeMembers_eq_slots s hs,
    encodeSlots_eq_success, Outcome.success.injEq, eq_comm (a := v)]

end Encode

section Decode

variable {dec : LspType → Decoder} {fresh : LspType → LspValue} {v : Value}

def SlotReads (dec : LspType → Decoder) (fresh : LspType → LspValue) (v : Value) (n : String) :
    Slot → Prop
  | .kind k => v.getString "kind" = .ok k
  | .value t x => (do dec t (← v.get n) (fresh t)) = .ok x

theorem matchKind_eq_ok {k : String} : matchKind v k = .ok () ↔ v.getString "kind" = .ok k := by
  unfold matchKind
  cases h : v.getString "kind" with
  | error f => simp [bind, Except.bind]
  | ok got =>
    by_cases hk : got = k <;> simp [bind, Except.bind, hk]

/-- All slots can be read back and all absent properties are missing. -/
def ReadsBack (dec : LspType → Decoder) (fresh : LspType → LspValue) (v : Value)
    (ss : List (String × Slot)) (absent : List String) : Prop :=
  (∀ n s, (n, s) ∈ ss → SlotReads dec fresh v n s) ∧ ∀ n ∈ absent, v.has n = false

theorem readsBack_append {ss rs : List (String × Slot)} {as bs : List String} :
    ReadsBack dec fresh v (ss ++ rs) (as ++ bs) ↔
      ReadsBack dec fresh v ss as ∧ ReadsBack dec fresh v rs bs := by
  simp only [ReadsBack, List.mem_append, or_imp, forall_and]
  tauto

theorem decodeProperty_eq_ok (hb : BlankBelow dec v) (hf : ∀ t, (fresh t).Blank) {p : Property}
    {x out : LspValue} (hx : Structure.MemberShaped p x) (ho : out.Blank) :
    decodeProperty dec fresh p v out = .ok x ↔
      ReadsBack dec fresh v (Structure.propertySlot p x) (Structure.absentProperty p x) := by
  cases hp : p.optional with
  | false =>
    have habsent : Structure.absentProperty p x = [] := by
      cases x <;> simp [Structure.absentProperty, hp]
    simp only [decodeProperty, Structure.propertySlot, habsent, hp, ReadsBack,
      hb.member p.type p.jsonName ho (hf p.type)]
    simp [SlotReads]
  | true =>
    cases hh : v.has p.jsonName with
    | false =>
      have hg : ∀ m, v.get p.jsonName ≠ .ok m := fun m hm => by
        simp [Value.has_iff.mpr ⟨m, hm⟩] at hh
      rcases hx hp with rfl | ⟨y, rfl⟩
      · simp [decodeProperty, Structure.propertySlot, Structure.absentProperty, hp, hh, ReadsBack,
          ho.asOptional]
      · simp [decodeProperty, Structure.propertySlot, Structure.absentProperty, hp, hh, ReadsBack,
          ho.asOptional, SlotReads, Except.bind_eq_ok, hg]
    | true =>
      rcases hx hp with rfl | ⟨y, rfl⟩
      · simp [decodeProperty, Structure.propertySlot, Structure.absentProperty, hp, hh, ReadsBack,
          Except.bind_eq_ok, pure, Except.pure]
      · simp [decodeProperty, Structure.propertySlot, Structure.absentProperty, hp, hh, ReadsBack,
          SlotReads, Except.bind_eq_ok, pure, Except.pure]

theorem decodeProperties_eq_ok (hb : BlankBelow dec v) (hf : ∀ t, (fresh t).Blank)
    {ps : List Property} {xs outs : List LspValue} (hx : Structure.MembersShaped ps xs) (ho : BlankList outs) :
    decodeProperties dec fresh v ps outs = .ok xs ↔
      ReadsBack dec fresh v (Structure.propertySlots ps xs) (Structure.absentProperties ps xs) := by
  induction ps generalizing xs outs with
  | nil =>
    cases xs with
    | nil => simp [decodeProperties, Structure.propertySlots, Structure.absentProperties, ReadsBack]
    | cons x xs => exact absurd hx (by simp [Structure.MembersShaped])
  | cons p ps ih =>
    cases xs with
    | nil => exact absurd hx (by simp [Structure.MembersShaped])
    | cons x xs =>
      rw [Structure.propertySlots, Structure.absentProperties, readsBack_append,
        ← decodeProperty_eq_ok hb hf hx.1 ho.headD, ← ih hx.2 ho.tail]
      simp only [decodeProperties, Except.bind_eq_ok, pure, Except.pure, Except.ok.injEq,
        List.cons.injEq]
      constructor
      · intro h
        obtain ⟨y, hy, ys, hys, rfl, rfl⟩ := h
        exact ⟨hy, hys⟩
      · intro h
        obtain ⟨hy, hys⟩ := h
        exact ⟨x, hy, xs, hys, rfl, rfl⟩

theorem decodeKind_eq_ok {kind : Option String} :
    decodeKind v kind = .ok () ↔ ReadsBack dec fresh v (Structure.kindSlots kind) [] := by
  cases kind with
  | none => simp [decodeKind, Structure.kindSlots, ReadsBack]
  | some k => simp [decodeKind, Structure.kindSlots, ReadsBack, SlotReads, matchKind_eq_ok]

mutual

/-- A structure decodes to a given value exactly when the value reads back. -/
theorem decodeStructure_eq_ok (hb : BlankBelow dec v) (hf : ∀ t, (fresh t).Blank)
    (s : Structure) {x out : LspValue} (hs : s.Shaped x)
    (ho : out.Blank) : decodeStructure dec fresh s v out = .ok x ↔
      v.kind = .object ∧ ReadsBack dec fresh v (s.slots x) (s.absentNames x) := by
  cases s with
  | mk kind ps bs =>
    cases x with
    | struct ms ss =>
      by_cases hk : v.kind = .object
      · have hkind : decodeKind v kind = .ok () ↔
            ReadsBack dec fresh v (Structure.kindSlots kind) [] := decodeKind_eq_ok
        have hprops := decodeProperties_eq_ok hb hf hs.1 ho.members
        have hbases := decodeBases_eq_ok hb hf bs hk hs.2 ho.bases
        have hall : Structure.absentNames (.mk kind ps bs) (.struct ms ss) =
            [] ++ Structure.absentProperties ps ms ++ Structure.absentBases bs ss := rfl
        rw [Structure.slots, hall, readsBack_append, readsBack_append, ← hkind, ← hprops, ← hbases]
        simp only [decodeStructure, hk, ne_eq, not_true_eq_false, if_false, Except.bind_eq_ok, pure,
          Except.pure, Except.ok.injEq, LspValue.struct.injEq, true_and]
        constructor
        · intro h
          obtain ⟨u, hu, ms', hms, ss', hss, rfl, rfl⟩ := h
          exact ⟨⟨hu, hms⟩, hss⟩
        · intro h
          obtain ⟨⟨hu, hms⟩, hss⟩ := h
          exact ⟨(), hu, ms, hms, ss, hss, rfl, rfl⟩
      · simp [decodeStructure, hk]
    | _ => exact absurd hs (by simp [Structure.Shaped])

theorem decodeBases_eq_ok (hb : BlankBelow dec v) (hf : ∀ t, (fresh t).Blank)
    (bs : List Structure) {ss outs : List LspValue} (hk : v.kind = .object) (hs : Structure.BasesShaped bs ss) (ho : BlankList outs) :
    decodeBases dec fresh v bs outs = .ok ss ↔
      ReadsBack dec fresh v (Structure.baseSlots bs ss) (Structure.absentBases bs ss) := by
  cases bs with
  | nil =>
    cases ss with
    | nil => simp [decodeBases, Structure.baseSlots, Structure.absentBases, ReadsBack]
    | cons s ss => exact absurd hs (by simp [Structure.BasesShaped])
  | cons b bs =>
    cases ss with
    | nil => exact absurd hs (by simp [Structure.BasesShaped])
    | cons s ss =>
      have hbase := decodeStructure_eq_ok hb hf b hs.1 ho.headD
      have hrest := decodeBases_eq_ok hb hf bs hk hs.2 ho.tail
      rw [Structure.baseSlots, Structure.absentBases, readsBack_append, ← hrest]
      simp only [decodeBases, Except.bind_eq_ok, pure, Except.pure, Except.ok.injEq,
        List.cons.injEq]
      constructor
      · intro h
        obtain ⟨y, hy, ys, hys, rfl, rfl⟩ := h
        exact ⟨(hbase.mp hy).2, hys⟩
      · intro h
        obtain ⟨hy, hys⟩ := h
        exact ⟨s, hbase.mpr ⟨hk, hy⟩, ss, hys, rfl, rfl⟩

end

end Decode

section Names

theorem propertySlot_names_perm {p : Property} {x : LspValue} (hx : Structure.MemberShaped p x) :
    (Structure.propertySlot p x).map Prod.fst ++ Structure.absentProperty p x = [p.jsonName] := by
  cases hp : p.optional with
  | false => cases x <;> simp [Structure.propertySlot, Structure.absentProperty, hp]
  | true =>
    rcases hx hp with rfl | ⟨y, rfl⟩ <;>
      simp [Structure.propertySlot, Structure.absentProperty, hp]

private theorem perm_interleave {as bs cs ds es fs : List String}
    (h : (as ++ bs).Perm es) (h' : (cs ++ ds).Perm fs) :
    ((as ++ cs) ++ (bs ++ ds)).Perm (es ++ fs) := by
  refine List.Perm.trans ?_ (h.append h')
  rw [List.append_assoc, List.append_assoc]
  apply List.Perm.append_left as
  rw [← List.append_assoc, ← List.append_assoc]
  exact List.perm_append_comm.append_right ds

theorem propertySlots_names_perm {ps : List Property} {xs : List LspValue}
    (hx : Structure.MembersShaped ps xs) :
    ((Structure.propertySlots ps xs).map Prod.fst ++ Structure.absentProperties ps xs).Perm
      (ps.map Property.jsonName) := by
  induction ps generalizing xs with
  | nil =>
    cases xs with
    | nil => simp [Structure.propertySlots, Structure.absentProperties]
    | cons x xs => exact absurd hx (by simp [Structure.MembersShaped])
  | cons p ps ih =>
    cases xs with
    | nil => exact absurd hx (by simp [Structure.MembersShaped])
    | cons x xs =>
      have hp : ((Structure.propertySlot p x).map Prod.fst ++
          Structure.absentProperty p x).Perm [p.jsonName] := by
        rw [propertySlot_names_perm hx.1]
      simpa [Structure.propertySlots, Structure.absentProperties] using
        perm_interleave hp (ih hx.2)

mutual

/-- The slots and the absent properties of a value share out the member names. -/
theorem slots_names_perm (s : Structure) {x : LspValue} (hs : s.Shaped x) :
    ((s.slots x).map Prod.fst ++ s.absentNames x).Perm s.memberNames := by
  cases s with
  | mk kind ps bs =>
    cases x with
    | struct ms ss =>
      have hk : ((Structure.kindSlots kind).map Prod.fst ++ []).Perm
          ((Structure.kindSlots kind).map Prod.fst) := by simp
      have h := perm_interleave (perm_interleave hk (propertySlots_names_perm hs.1))
        (baseSlots_names_perm bs hs.2)
      simpa [Structure.slots, Structure.absentNames, Structure.memberNames] using h
    | _ => exact absurd hs (by simp [Structure.Shaped])

theorem baseSlots_names_perm (bs : List Structure) {ss : List LspValue}
    (hs : Structure.BasesShaped bs ss) :
    ((Structure.baseSlots bs ss).map Prod.fst ++ Structure.absentBases bs ss).Perm
      (Structure.baseMemberNames bs) := by
  cases bs with
  | nil =>
    cases ss with
    | nil => simp [Structure.baseSlots, Structure.absentBases, Structure.baseMemberNames]
    | cons s ss => exact absurd hs (by simp [Structure.BasesShaped])
  | cons b bs =>
    cases ss with
    | nil => exact absurd hs (by simp [Structure.BasesShaped])
    | cons s ss =>
      simpa [Structure.baseSlots, Structure.absentBases, Structure.baseMemberNames] using
        perm_interleave (slots_names_perm b hs.1) (baseSlots_names_perm bs hs.2)

end

end Names

section Sources

/-- Where a slot of a structure value comes from: the literal kind, a member or a base. -/
inductive Structure.Contributes : Structure → LspValue → String → Slot → Prop
  | kind {k : String} {ps : List Property} {bs : List Structure} {ms ss : List LspValue} :
      Contributes (.mk (some k) ps bs) (.struct ms ss) "kind" (.kind k)
  | member {kind : Option String} {ps : List Property} {bs : List Structure}
      {ms ss : List LspValue} {p : Property} {x y : LspValue} (hp : p ∈ ps) (hx : x ∈ ms)
      (hy : x = y ∨ x = .present y) :
      Contributes (.mk kind ps bs) (.struct ms ss) p.jsonName (.value p.type y)
  | base {kind : Option String} {ps : List Property} {bs : List Structure}
      {ms ss : List LspValue} {b : Structure} {s : LspValue} {n : String} {slot : Slot}
      (hb : b ∈ bs) (hs : s ∈ ss) (h : Contributes b s n slot) :
      Contributes (.mk kind ps bs) (.struct ms ss) n slot

theorem mem_propertySlots {ps : List Property} {xs : List LspValue} {n : String} {slot : Slot}
    (h : (n, slot) ∈ Structure.propertySlots ps xs) : ∃ p ∈ ps, ∃ x ∈ xs, ∃ y,
      (x = y ∨ x = .present y) ∧ n = p.jsonName ∧ slot = .value p.type y := by
  induction ps generalizing xs with
  | nil => simp [Structure.propertySlots] at h
  | cons p ps ih =>
    cases xs with
    | nil => simp [Structure.propertySlots] at h
    | cons x xs =>
      rcases List.mem_append.mp h with h | h
      · refine ⟨p, List.mem_cons_self .., x, List.mem_cons_self .., ?_⟩
        cases hp : p.optional with
        | false =>
          simp only [Structure.propertySlot, hp, Bool.false_eq_true, if_false, List.mem_singleton,
            Prod.mk.injEq] at h
          exact ⟨x, .inl rfl, h⟩
        | true =>
          cases x <;> simp [Structure.propertySlot, hp] at h
          exact ⟨_, .inr rfl, h⟩
      · obtain ⟨q, hq, z, hz, hslot⟩ := ih h
        exact ⟨q, List.mem_cons_of_mem _ hq, z, List.mem_cons_of_mem _ hz, hslot⟩

mutual

theorem contributes_of_mem (s : Structure) {x : LspValue} {n : String} {slot : Slot}
    (h : (n, slot) ∈ s.slots x) : s.Contributes x n slot := by
  cases s with
  | mk kind ps bs =>
    cases x with
    | struct ms ss =>
      simp only [Structure.slots, List.mem_append] at h
      rcases h with (h | h) | h
      · cases kind with
        | none => simp [Structure.kindSlots] at h
        | some k =>
          simp only [Structure.kindSlots, List.mem_singleton, Prod.mk.injEq] at h
          obtain ⟨rfl, rfl⟩ := h
          exact .kind
      · obtain ⟨p, hp, x, hx, y, hy, rfl, rfl⟩ := mem_propertySlots h
        exact .member hp hx hy
      · obtain ⟨b, hb, s, hs, hslot⟩ := mem_baseSlots bs h
        exact .base hb hs hslot
    | _ => simp [Structure.slots] at h

theorem mem_baseSlots (bs : List Structure) {ss : List LspValue} {n : String} {slot : Slot}
    (h : (n, slot) ∈ Structure.baseSlots bs ss) :
    ∃ b ∈ bs, ∃ s ∈ ss, b.Contributes s n slot := by
  cases bs with
  | nil => simp [Structure.baseSlots] at h
  | cons b bs =>
    cases ss with
    | nil => simp [Structure.baseSlots] at h
    | cons s ss =>
      rcases List.mem_append.mp h with h | h
      · exact ⟨b, List.mem_cons_self .., s, List.mem_cons_self .., contributes_of_mem b h⟩
      · obtain ⟨c, hc, y, hy, hslot⟩ := mem_baseSlots bs h
        exact ⟨c, List.mem_cons_of_mem _ hc, y, List.mem_cons_of_mem _ hy, hslot⟩

end

end Sources

section Parts

variable {P : LspValue → Prop}

/-! What holds of all the slots of a structure value holds of the value, for properties
that Optionals and structures inherit from their parts. -/

private theorem members_of_slots (habsent : P .absent) (hpresent : ∀ y, P y → P (.present y))
    {ps : List Property} {xs : List LspValue} (hs : Structure.MembersShaped ps xs)
    (h : ∀ n t y, (n, Slot.value t y) ∈ Structure.propertySlots ps xs → P y) : ∀ x ∈ xs, P x := by
  induction ps generalizing xs with
  | nil =>
    cases xs with
    | nil => simp
    | cons x xs => exact absurd hs id
  | cons p ps ih =>
    cases xs with
    | nil => exact absurd hs id
    | cons x xs =>
      have hslot : ∀ n t y, (n, Slot.value t y) ∈ Structure.propertySlot p x → P y :=
        fun n t y hy => h n t y (List.mem_append_left _ hy)
      refine List.forall_mem_cons.mpr ⟨?_, ih hs.2 fun n t y hy => h n t y (List.mem_append_right _ hy)⟩
      cases hp : p.optional with
      | false => exact hslot p.jsonName p.type x (by simp [Structure.propertySlot, hp])
      | true =>
        rcases hs.1 hp with rfl | ⟨y, rfl⟩
        · exact habsent
        · exact hpresent y (hslot p.jsonName p.type y (by simp [Structure.propertySlot, hp]))

mutual

theorem Structure.of_slots (s : Structure) (habsent : P .absent)
    (hpresent : ∀ y, P y → P (.present y))
    (hstruct : ∀ ms ss, (∀ m ∈ ms, P m) → (∀ b ∈ ss, P b) → P (.struct ms ss)) {x : LspValue}
    (hs : s.Shaped x) (h : ∀ n t y, (n, Slot.value t y) ∈ s.slots x → P y) : P x := by
  cases s with
  | mk kind ps bs =>
    cases x with
    | struct ms ss =>
      simp only [Structure.slots, List.mem_append] at h
      exact hstruct ms ss
        (members_of_slots habsent hpresent hs.1 fun n t y hy => h n t y (.inl (.inr hy)))
        (bases_of_slots bs habsent hpresent hstruct hs.2 fun n t y hy => h n t y (.inr hy))
    | _ => exact absurd hs id

theorem bases_of_slots (bs : List Structure) (habsent : P .absent)
    (hpresent : ∀ y, P y → P (.present y))
    (hstruct : ∀ ms ss, (∀ m ∈ ms, P m) → (∀ b ∈ ss, P b) → P (.struct ms ss))
    {ss : List LspValue} (hs : Structure.BasesShaped bs ss)
    (h : ∀ n t y, (n, Slot.value t y) ∈ Structure.baseSlots bs ss → P y) : ∀ s ∈ ss, P s := by
  cases bs with
  | nil =>
    cases ss with
    | nil => simp
    | cons s ss => exact absurd hs id
  | cons b bs =>
    cases ss with
    | nil => exact absurd hs id
    | cons s ss =>
      exact List.forall_mem_cons.mpr
        ⟨b.of_slots habsent hpresent hstruct hs.1 fun n t y hy =>
          h n t y (List.mem_append_left _ hy),
        bases_of_slots bs habsent hpresent hstruct hs.2 fun n t y hy =>
          h n t y (List.mem_append_right _ hy)⟩

end

end Parts

end Langsvr.Lsp
