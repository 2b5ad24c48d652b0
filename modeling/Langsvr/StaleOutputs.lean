import Langsvr.OrderedValues
import Langsvr.ProtocolExcerpt
import Langsvr.SchemaMatching

/-!
# What an output keeps

A `Decode` overwrites most of what its output holds, but it keeps the entries of a map
whose keys the JSON value does not have, and the Optionals of a structure whose members
it does not have. Two outputs end up equal if and only if these parts of them are.
-/

namespace Langsvr

/-- Two results fail alike, and two values that they yield are equal if and only if `P`. -/
structure Result.SameIff {α : Type} (r r' : Result α) (P : Prop) : Prop where
  error : ∀ f, r = .error f ↔ r' = .error f
  value : ∀ a a', r = .ok a → r' = .ok a' → (a = a' ↔ P)

namespace Result.SameIff

variable {α β : Type} {r r' : Result α} {P Q : Prop}

theorem refl (r : Result α) : Result.SameIff r r True := by
  constructor
  · exact fun _ => Iff.rfl
  · intro a a' ha ha'
    rw [ha] at ha'
    cases ha'
    exact iff_of_true rfl trivial

theorem of_error (f : Failure) : Result.SameIff (.error f : Result α) (.error f) P := by
  constructor
  · exact fun _ => Iff.rfl
  · intro a a' ha
    cases ha

theorem ok {a a' : α} (h : a = a' ↔ P) : Result.SameIff (.ok a) (.ok a') P := by
  constructor
  · intro f
    constructor
    · intro hf
      cases hf
    · intro hf
      cases hf
  · intro b b' hb hb'
    cases hb
    cases hb'
    exact h

theorem congr (h : Result.SameIff r r' P) (hpq : P ↔ Q) : Result.SameIff r r' Q :=
  ⟨h.error, fun a a' ha ha' => (h.value a a' ha ha').trans hpq⟩

theorem bind {f f' : α → Result β} (h : Result.SameIff r r' P)
    (hf : ∀ a a', r = .ok a → r' = .ok a' → Result.SameIff (f a) (f' a') Q) :
    Result.SameIff (r >>= f) (r' >>= f') Q := by
  cases r with
  | error e =>
    rw [(h.error e).mp rfl]
    exact of_error e
  | ok a =>
    cases r' with
    | error e => cases (h.error e).mpr rfl
    | ok a' => exact hf a a' rfl rfl

theorem bind_same {f f' : α → Result β} (hf : ∀ a, r = .ok a → Result.SameIff (f a) (f' a) Q) :
    Result.SameIff (r >>= f) (r >>= f') Q := by
  refine (refl r).bind fun a a' ha ha' => ?_
  rw [ha] at ha'
  cases ha'
  exact hf a ha

theorem mapM {f f' : β → Result α} {P : β → Prop} (bs : List β)
    (h : ∀ b ∈ bs, Result.SameIff (f b) (f' b) (P b)) :
    Result.SameIff (bs.mapM f) (bs.mapM f') (∀ b ∈ bs, P b) := by
  induction bs with
  | nil => exact ok (by simp)
  | cons b bs ih =>
    have hb := h b (List.mem_cons_self ..)
    have hbs := ih fun c hc => h c (List.mem_cons_of_mem _ hc)
    rw [List.mapM_cons, List.mapM_cons]
    refine hb.bind fun a a' ha ha' => hbs.bind fun as as' has has' => ok ?_
    rw [List.cons_eq_cons, hb.value a a' ha ha', hbs.value as as' has has', List.forall_mem_cons]

end Result.SameIff

namespace Lsp

open Json (Value)
open LspValue (Blank BlankList)

/-- The types whose values are replaced as a whole. -/
def LspType.Replaced : LspType → Prop
  | .vector _ | .tuple _ | .map _ | .reference _ => False
  | _ => True

namespace Structure

def memberPairs : List Property → List LspValue → List LspValue →
    List (Property × LspValue × LspValue)
  | [], _, _ => []
  | p :: ps, xs, ys => (p, xs.headD .null, ys.headD .null) :: memberPairs ps xs.tail ys.tail

mutual

/-- The properties of a structure and of its bases, with what two outputs hold for each. -/
def pairs : Structure → LspValue → LspValue → List (Property × LspValue × LspValue)
  | .mk _ ps bs, x, y => memberPairs ps x.members y.members ++ basePairs bs x.bases y.bases

def basePairs : List Structure → List LspValue → List LspValue →
    List (Property × LspValue × LspValue)
  | [], _, _ => []
  | b :: bs, xs, ys =>
    pairs b (xs.headD .null) (ys.headD .null) ++ basePairs bs xs.tail ys.tail

end

end Structure

/-- `SameLeftovers env t v o o'`: what a `Decode` of `v` into a value of the type keeps is
the same in `o` and `o'`. -/
inductive SameLeftovers (env : Declarations) : LspType → Value → LspValue → LspValue → Prop
  | replaced {t : LspType} {v : Value} {o o' : LspValue} (h : t.Replaced) :
      SameLeftovers env t v o o'
  | vector {t : LspType} {v : Value} {o o' : LspValue}
      (h : ∀ i e, v.getIndex i = .ok e → SameLeftovers env t e
        (o.elements.getD i (env.default t)) (o'.elements.getD i (env.default t))) :
      SameLeftovers env (.vector t) v o o'
  | tuple {ts : List LspType} {v : Value} {o o' : LspValue}
      (h : ∀ i t e, ts[i]? = some t → v.getIndex i = .ok e → SameLeftovers env t e
        (o.elements.getD i .null) (o'.elements.getD i .null)) :
      SameLeftovers env (.tuple ts) v o o'
  | map {t : LspType} {v : Value} {o o' : LspValue}
      (hk : ∀ k, v.has k = false →
        List.lookup k o.entries = List.lookup k o'.entries)
      (h : ∀ k m, v.get k = .ok m → SameLeftovers env t m
        ((List.lookup k o.entries).getD (env.default t))
        ((List.lookup k o'.entries).getD (env.default t))) :
      SameLeftovers env (.map t) v o o'
  | reference {n : String} {v : Value} {o o' : LspValue}
      (ha : ∀ p x y, (p, x, y) ∈ (env.find n).pairs o o' → p.optional = true →
        v.has p.jsonName = false → x.asOptional = y.asOptional)
      (h : ∀ p x y, (p, x, y) ∈ (env.find n).pairs o o' → p.optional = false →
        ∀ m, v.get p.jsonName = .ok m → SameLeftovers env p.type m x y) :
      SameLeftovers env (.reference n) v o o'

section Laws

variable {env : Declarations} {dec : LspType → Decoder} {v : Value} {o o' : LspValue}
  {R : LspType → Value → LspValue → LspValue → Prop}

/-- The parts of a JSON value decode alike into two outputs up to a relation. -/
def SameBelow (dec : LspType → Decoder) (R : LspType → Value → LspValue → LspValue → Prop)
    (v : Value) : Prop :=
  ∀ t c o o', c.depth < v.depth → c.WellFormed → o.KeysOrdered → o'.KeysOrdered →
    Result.SameIff (dec t c o) (dec t c o') (R t c o o')

theorem SameBelow.index (h : SameBelow dec R v) (hv : v.WellFormed) (t : LspType) (i : ℕ)
    (ho : o.KeysOrdered) (ho' : o'.KeysOrdered) :
    Result.SameIff (do dec t (← v.getIndex i) o) (do dec t (← v.getIndex i) o')
      (∀ e, v.getIndex i = .ok e → R t e o o') := by
  refine Result.SameIff.bind_same fun e he => ?_
  refine (h t e o o' (depth_getIndex he) (hv.getIndex he) ho ho').congr ?_
  simp [he]

theorem SameBelow.member (h : SameBelow dec R v) (hv : v.WellFormed) (t : LspType) (n : String)
    (ho : o.KeysOrdered) (ho' : o'.KeysOrdered) :
    Result.SameIff (do dec t (← v.get n) o) (do dec t (← v.get n) o')
      (∀ m, v.get n = .ok m → R t m o o') := by
  refine Result.SameIff.bind_same fun m hm => ?_
  refine (h t m o o' (depth_get hm) (hv.get hm) ho ho').congr ?_
  simp [hm]

theorem index_lt_count {e : Value} {i : ℕ} (h : v.getIndex i = .ok e) : i < v.count := by
  obtain ⟨es, rfl, hi⟩ := Value.getIndex_eq_ok.mp h
  exact (List.getElem?_eq_some_iff.mp hi).1

theorem decodeVector_same (h : SameBelow dec R v) (hv : v.WellFormed) (t : LspType)
    {fresh : LspValue} (hf : fresh.KeysOrdered) (ho : o.KeysOrdered) (ho' : o'.KeysOrdered) :
    Result.SameIff (decodeVector (dec t) fresh v o) (decodeVector (dec t) fresh v o')
      (∀ i e, v.getIndex i = .ok e → R t e (o.elements.getD i fresh) (o'.elements.getD i fresh)) := by
  unfold decodeVector
  split
  · exact .of_error _
  · have hloop := Result.SameIff.mapM (List.range v.count) fun i _ =>
      h.index hv t i (ho.elements.getD i hf) (ho'.elements.getD i hf)
    refine hloop.bind fun xs xs' hxs hxs' => .ok ?_
    rw [LspValue.vector.injEq, hloop.value xs xs' hxs hxs']
    constructor
    · intro hr i e he
      exact hr i (List.mem_range.mpr (index_lt_count he)) e he
    · intro hr i _ e he
      exact hr i e he

private theorem getD_tail (os : List LspValue) (j : ℕ) :
    os.tail.getD j .null = os.getD (j + 1) .null := by
  cases os <;> simp

/-- The loop of the tuple codec stops for the same reason, and unless it stops it keeps
nothing but what its elements keep. -/
theorem decodeItems_same (h : SameBelow dec R v) (hv : v.WellFormed)
    (he : ∀ t c o, (dec t c o).Explained) (ts : List LspType) (i : ℕ) {os os' : List LspValue}
    (ho : LspValue.KeysOrderedList os) (ho' : LspValue.KeysOrderedList os') :
    (decodeItems v (ts.map dec) i os).2 = (decodeItems v (ts.map dec) i os').2 ∧
      ((decodeItems v (ts.map dec) i os).2 = "" →
        ((decodeItems v (ts.map dec) i os).1 = (decodeItems v (ts.map dec) i os').1 ↔
          ∀ j t e, ts[j]? = some t → v.getIndex (i + j) = .ok e →
            R t e (os.getD j .null) (os'.getD j .null))) := by
  induction ts generalizing i os os' with
  | nil => simp [decodeItems]
  | cons t ts ih =>
    simp only [List.map_cons, decodeItems]
    cases hi : v.getIndex i with
    | error f => exact ⟨rfl, fun hr => absurd hr (v.getIndex_explained i f hi)⟩
    | ok e =>
      have hsame := h t e _ _ (depth_getIndex hi) (hv.getIndex hi) ho.headD ho'.headD
      cases hx : dec t e (os.headD .null) with
      | error f =>
        have hx' := (hsame.error f).mp hx
        simp only [hx, hx']
        exact ⟨trivial, fun hr => absurd hr (he t e _ f hx)⟩
      | ok x =>
        cases hx' : dec t e (os'.headD .null) with
        | error f =>
          rw [(hsame.error f).mpr hx'] at hx
          cases hx
        | ok x' =>
          obtain ⟨hr, hrest⟩ := ih (i + 1) ho.tail ho'.tail
          simp only [hx, hx']
          refine ⟨hr, fun hempty => ?_⟩
          rw [List.cons_eq_cons, hsame.value x x' hx hx', hrest hempty, List.headD_eq_getD,
            List.headD_eq_getD]
          simp only [getD_tail]
          constructor
          · intro hr
            obtain ⟨hfirst, hothers⟩ := hr
            intro j u w hj hw
            cases j with
            | zero =>
              cases hj
              rw [Nat.add_zero, hi] at hw
              cases hw
              exact hfirst
            | succ j =>
              refine hothers j u w hj ?_
              rw [← hw]
              congr 1
              omega
          · intro hr
            refine ⟨hr 0 t e rfl hi, fun j u w hj hw => hr (j + 1) u w hj ?_⟩
            rw [← hw]
            congr 1
            omega

theorem decodeTuple_same (h : SameBelow dec R v) (hv : v.WellFormed)
    (he : ∀ t c o, (dec t c o).Explained) (ts : List LspType) (ho : o.KeysOrdered)
    (ho' : o'.KeysOrdered) :
    Result.SameIff (decodeTuple (ts.map dec) v o) (decodeTuple (ts.map dec) v o')
      (∀ i t e, ts[i]? = some t → v.getIndex i = .ok e →
        R t e (o.elements.getD i .null) (o'.elements.getD i .null)) := by
  have hitems := decodeItems_same h hv he ts 0 ho.elements ho'.elements
  simp only [Nat.zero_add] at hitems
  unfold decodeTuple
  split
  · exact .of_error _
  · split
    · exact .of_error _
    · by_cases hr : (decodeItems v (ts.map dec) 0 o.elements).2 = ""
      · have hr' := hitems.1.symm.trans hr
        simp only [hr, hr', if_true]
        apply Result.SameIff.ok
        rw [LspValue.tuple.injEq]
        exact hitems.2 hr
      · simp only [← hitems.1, hr, if_false]
        exact .of_error _

/-- The rounds of the loop over the names that are left. Each of them touches one entry. -/
theorem decodeEntries_same (h : SameBelow dec R v) (hv : v.WellFormed) (t : LspType)
    {fresh : LspValue} {names : List String} (hn : names.Nodup)
    {es es' : List (String × LspValue)} (ho : OrderedEntries.Ordered es)
    (ho' : OrderedEntries.Ordered es')
    (hk : ∀ name ∈ names, ((List.lookup name es).getD fresh).KeysOrdered)
    (hk' : ∀ name ∈ names, ((List.lookup name es').getD fresh).KeysOrdered) :
    Result.SameIff (names.foldlM (decodeEntry (dec t) fresh v) es)
      (names.foldlM (decodeEntry (dec t) fresh v) es')
      ((∀ k, k ∉ names → List.lookup k es = List.lookup k es') ∧
        ∀ k ∈ names, ∀ m, v.get k = .ok m → R t m ((List.lookup k es).getD fresh)
          ((List.lookup k es').getD fresh)) := by
  induction names generalizing es es' with
  | nil =>
    apply Result.SameIff.ok
    simp only [List.not_mem_nil, not_false_eq_true, forall_const, false_implies,
      and_true]
    constructor
    · intro he k
      rw [he]
    · exact ho.ext ho'
  | cons name names ih =>
    obtain ⟨hfresh, hn⟩ := List.nodup_cons.mp hn
    have hne : ∀ k ∈ names, k ≠ name := fun k hk he => hfresh (he ▸ hk)
    simp only [List.foldlM_cons, decodeEntry, bind_assoc]
    refine Result.SameIff.bind_same fun m hm => ?_
    have hentry := h t m _ _ (depth_get hm) (hv.get hm) (hk name (List.mem_cons_self ..))
      (hk' name (List.mem_cons_self ..))
    refine hentry.bind fun x x' hx hx' => ?_
    have hkeep : ∀ k ∈ names, ∀ (y : LspValue) (fs : List (String × LspValue)),
        List.lookup k (OrderedEntries.assign name y fs) = List.lookup k fs := by
      intro k hk y fs
      rw [OrderedEntries.lookup_assign, if_neg (hne k hk)]
    have hrest := ih hn (ho.assign name x) (ho'.assign name x')
      (fun k hmem => by rw [hkeep k hmem]; exact hk k (List.mem_cons_of_mem _ hmem))
      (fun k hmem => by rw [hkeep k hmem]; exact hk' k (List.mem_cons_of_mem _ hmem))
    refine hrest.congr ?_
    constructor
    · intro hr
      obtain ⟨hothers, hnames⟩ := hr
      refine ⟨fun k hk => ?_, fun k hmem w hw => ?_⟩
      · have hkn : k ≠ name := fun he => hk (he ▸ List.mem_cons_self ..)
        have hk := hothers k fun hmem => hk (List.mem_cons_of_mem _ hmem)
        simpa [OrderedEntries.lookup_assign, hkn] using hk
      · rcases List.mem_cons.mp hmem with rfl | hmem
        · cases hm.symm.trans hw
          have hself := hothers k hfresh
          simp only [OrderedEntries.lookup_assign, if_true, Option.some.injEq] at hself
          exact (hentry.value x x' hx hx').mp hself
        · have hr := hnames k hmem w hw
          rwa [hkeep k hmem, hkeep k hmem] at hr
    · intro hr
      obtain ⟨hothers, hnames⟩ := hr
      refine ⟨fun k hk => ?_, fun k hmem w hw => ?_⟩
      · by_cases hkn : k = name
        · have hself := hnames name (List.mem_cons_self ..) m hm
          have heq := (hentry.value x x' hx hx').mpr hself
          rw [hkn, OrderedEntries.lookup_assign, OrderedEntries.lookup_assign, heq]
          simp
        · simp only [OrderedEntries.lookup_assign, hkn, if_false]
          refine hothers k fun hmem => ?_
          rcases List.mem_cons.mp hmem with he | hmem
          · exact hkn he
          · exact hk hmem
      · rw [hkeep k hmem, hkeep k hmem]
        exact hnames k (List.mem_cons_of_mem _ hmem) w hw

theorem decodeMap_same (h : SameBelow dec R v) (hv : v.WellFormed) (t : LspType)
    {fresh : LspValue} (hf : fresh.KeysOrdered) (ho : o.KeysOrdered) (ho' : o'.KeysOrdered) :
    Result.SameIff (decodeMap (dec t) fresh v o) (decodeMap (dec t) fresh v o')
      ((∀ k, v.has k = false →
          List.lookup k o.entries = List.lookup k o'.entries) ∧
        ∀ k m, v.get k = .ok m → R t m ((List.lookup k o.entries).getD fresh)
          ((List.lookup k o'.entries).getD fresh)) := by
  cases v with
  | objectValue ms =>
    have hlookup : ∀ {es : List (String × LspValue)}, LspValue.KeysOrderedEntries es →
        ∀ k, ((List.lookup k es).getD fresh).KeysOrdered := by
      intro es hes k
      cases hl : List.lookup k es with
      | none => exact hf
      | some x =>
        exact LspValue.keysOrderedEntries_iff.mp hes (k, x) (OrderedEntries.mem_of_lookup hl)
    have hloop := decodeEntries_same h hv t hv.1.nodup_keys ho.entries.1 ho'.entries.1
      (fun k _ => hlookup ho.entries.2 k) (fun k _ => hlookup ho'.entries.2 k)
    have hhas : ∀ k, (Value.objectValue ms).has k = false ↔ k ∉ OrderedEntries.keys ms := by
      intro k
      rw [← OrderedEntries.lookup_eq_none_iff]
      simp [Value.has]
    have hget : ∀ k m, (Value.objectValue ms).get k = .ok m → k ∈ OrderedEntries.keys ms := by
      intro k m hm
      by_contra hk
      rw [← OrderedEntries.lookup_eq_none_iff] at hk
      simp [Value.get, hk] at hm
    refine hloop.bind fun es es' hes hes' => .ok ?_
    rw [LspValue.map.injEq, hloop.value es es' hes hes']
    simp only [hhas]
    constructor
    · intro hr
      exact ⟨hr.1, fun k m hm => hr.2 k (hget k m hm) m hm⟩
    · intro hr
      exact ⟨hr.1, fun k _ m hm => hr.2 k m hm⟩
  | _ => exact .of_error _

/-- What an own property of a structure keeps is the same in two outputs. -/
def SameMember (R : LspType → Value → LspValue → LspValue → Prop) (v : Value)
    (t : Property × LspValue × LspValue) : Prop :=
  (t.1.optional = true → v.has t.1.jsonName = false → t.2.1.asOptional = t.2.2.asOptional) ∧
    (t.1.optional = false → ∀ m, v.get t.1.jsonName = .ok m → R t.1.type m t.2.1 t.2.2)

theorem decodeProperty_same (h : SameBelow dec R v) (hv : v.WellFormed)
    (fresh : LspType → LspValue) (p : Property) (ho : o.KeysOrdered) (ho' : o'.KeysOrdered) :
    Result.SameIff (decodeProperty dec fresh p v o) (decodeProperty dec fresh p v o')
      (SameMember R v (p, o, o')) := by
  unfold SameMember
  cases hp : p.optional with
  | false =>
    simp only [decodeProperty, hp, Bool.false_eq_true, if_false]
    exact (h.member hv p.type p.jsonName ho ho').congr (by simp)
  | true =>
    cases hh : v.has p.jsonName with
    | false =>
      simp only [decodeProperty, hp, hh, Bool.false_eq_true, if_true, if_false]
      exact .ok (by simp)
    | true =>
      simp only [decodeProperty, hp, hh, if_true]
      exact (Result.SameIff.refl _).congr (by simp)

theorem decodeProperties_same (h : SameBelow dec R v) (hv : v.WellFormed)
    (fresh : LspType → LspValue) (ps : List Property) {os os' : List LspValue}
    (ho : LspValue.KeysOrderedList os) (ho' : LspValue.KeysOrderedList os') :
    Result.SameIff (decodeProperties dec fresh v ps os) (decodeProperties dec fresh v ps os')
      (∀ t ∈ Structure.memberPairs ps os os', SameMember R v t) := by
  induction ps generalizing os os' with
  | nil => exact .ok (by simp [Structure.memberPairs])
  | cons p ps ih =>
    have hp := decodeProperty_same h hv fresh p ho.headD ho'.headD
    have hps := ih ho.tail ho'.tail
    simp only [decodeProperties]
    refine hp.bind fun x x' hx hx' => hps.bind fun xs xs' hxs hxs' => .ok ?_
    rw [List.cons_eq_cons, hp.value x x' hx hx', hps.value xs xs' hxs hxs', Structure.memberPairs,
      List.forall_mem_cons]

mutual

theorem decodeStructure_same (h : SameBelow dec R v) (hv : v.WellFormed)
    (fresh : LspType → LspValue) (s : Structure) {o o' : LspValue} (ho : o.KeysOrdered)
    (ho' : o'.KeysOrdered) :
    Result.SameIff (decodeStructure dec fresh s v o) (decodeStructure dec fresh s v o')
      (∀ t ∈ s.pairs o o', SameMember R v t) := by
  cases s with
  | mk kind ps bs =>
    have hps := decodeProperties_same h hv fresh ps ho.members ho'.members
    have hbs := decodeBases_same h hv fresh bs ho.bases ho'.bases
    simp only [decodeStructure]
    split
    · exact .of_error _
    · refine Result.SameIff.bind_same fun _ _ => hps.bind fun ms ms' hms hms' =>
        hbs.bind fun ss ss' hss hss' => .ok ?_
      rw [LspValue.struct.injEq, hps.value ms ms' hms hms', hbs.value ss ss' hss hss',
        Structure.pairs, List.forall_mem_append]

theorem decodeBases_same (h : SameBelow dec R v) (hv : v.WellFormed)
    (fresh : LspType → LspValue) (bs : List Structure) {os os' : List LspValue}
    (ho : LspValue.KeysOrderedList os) (ho' : LspValue.KeysOrderedList os') :
    Result.SameIff (decodeBases dec fresh v bs os) (decodeBases dec fresh v bs os')
      (∀ t ∈ Structure.basePairs bs os os', SameMember R v t) := by
  cases bs with
  | nil => exact .ok (by simp [Structure.basePairs])
  | cons b bs =>
    have hb := decodeStructure_same h hv fresh b ho.headD ho'.headD
    have hbs := decodeBases_same h hv fresh bs ho.tail ho'.tail
    simp only [decodeBases]
    refine hb.bind fun x x' hx hx' => hbs.bind fun xs xs' hxs hxs' => .ok ?_
    rw [List.cons_eq_cons, hb.value x x' hx hx', hbs.value xs xs' hxs hxs', Structure.basePairs,
      List.forall_mem_append]

end

end Laws

section Outputs

variable {env : Declarations}

/-- A `Decode` fails alike into any two outputs, and when it succeeds the two values are
equal if and only if the outputs agreed on what it keeps. -/
theorem decode_same (t : LspType) (v : Value) (o o' : LspValue) (hv : v.WellFormed)
    (ho : o.KeysOrdered) (ho' : o'.KeysOrdered) :
    Result.SameIff (decode env t v o) (decode env t v o') (SameLeftovers env t v o o') := by
  refine decode_induct (P := fun t v o r => v.WellFormed → o.KeysOrdered → ∀ o', o'.KeysOrdered →
    r.SameIff (decode env t v o') (SameLeftovers env t v o o')) (fun v ih t o hv ho o' ho' => ?_)
    t v o hv ho o' ho'
  have h : SameBelow (decode env) (SameLeftovers env) v :=
    fun t c o o' hc hw hk hk' => ih t c o hc hw hk o' hk'
  have hf := keysOrdered_default env
  have hreplaced : t.Replaced → (True ↔ SameLeftovers env t v o o') :=
    fun hr => iff_of_true trivial (.replaced hr)
  rw [decode_eq env t v o']
  cases t with
  | vector t =>
    refine (decodeVector_same h hv t (hf t) ho ho').congr ⟨.vector, fun hr => ?_⟩
    cases hr with
    | replaced hr => exact absurd hr id
    | vector hr => exact hr
  | tuple ts =>
    refine (decodeTuple_same h hv (decode_explained env) ts ho ho').congr ⟨.tuple, fun hr => ?_⟩
    cases hr with
    | replaced hr => exact absurd hr id
    | tuple hr => exact hr
  | map t =>
    refine (decodeMap_same h hv t (hf t) ho ho').congr ⟨fun hr => .map hr.1 hr.2, fun hr => ?_⟩
    cases hr with
    | replaced hr => exact absurd hr id
    | map hk hr => exact ⟨hk, hr⟩
  | reference n =>
    refine (decodeStructure_same h hv env.default (env.find n) ho ho').congr
      ⟨fun hr => .reference (fun p x y hm => (hr _ hm).1) fun p x y hm => (hr _ hm).2,
        fun hr => ?_⟩
    cases hr with
    | replaced hr => exact absurd hr id
    | reference ha hr => exact fun t hm => ⟨ha _ _ _ hm, hr _ _ _ hm⟩
  | _ => exact (Result.SameIff.refl _).congr (hreplaced trivial)

/-- A `Decode` has the same outcome whatever its output held, and it leaves equal values in
two outputs if and only if these agreed on what it keeps. -/
theorem decode_independent_iff {t : LspType} {v : Value} {o o' : LspValue} (hv : v.WellFormed)
    (ho : o.KeysOrdered) (ho' : o'.KeysOrdered) :
    (∀ f, decode env t v o = .error f ↔ decode env t v o' = .error f) ∧
      ∀ x x', decode env t v o = .ok x → decode env t v o' = .ok x' →
        (x = x' ↔ SameLeftovers env t v o o') := by
  have h : Result.SameIff (decode env t v o) (decode env t v o') _ :=
    decode_same t v o o' hv ho ho'
  exact ⟨h.error, h.value⟩

/-- The string under a key that the object has is overwritten. -/
theorem decode_independent_iff_map :
    SameLeftovers [] (.map .string) (.objectValue [("a", .stringValue "b")]) (.map [])
      (.map [("a", .string "old")]) := by
  have hv : (Value.objectValue [("a", .stringValue "b")]).WellFormed :=
    ⟨by decide, trivial, trivial⟩
  have ho : (LspValue.map []).KeysOrdered := ⟨.nil, trivial⟩
  have ho' : (LspValue.map [("a", .string "old")]).KeysOrdered := ⟨by decide, trivial, trivial⟩
  exact ((decode_independent_iff hv ho ho').2 (.map [("a", .string "b")])
    (.map [("a", .string "b")]) rfl rfl).mp rfl

/-- An entry of an earlier message survives in a map, and so does an Optional whose member
the object does not have. -/
theorem decode_keeps_leftovers :
    decode [] (.map .string) (.objectValue []) (.map []) = .ok (.map []) ∧
      decode [] (.map .string) (.objectValue []) (.map [("a", .string "old")]) =
        .ok (.map [("a", .string "old")]) ∧
      decode protocol (.reference "CreateFileOptions") (.objectValue [])
        (.struct [.absent, .absent] []) = .ok (.struct [.absent, .absent] []) ∧
      decode protocol (.reference "CreateFileOptions") (.objectValue [])
        (.struct [.present (.boolean true), .absent] []) =
          .ok (.struct [.present (.boolean true), .absent] []) :=
  ⟨rfl, rfl, rfl, rfl⟩

end Outputs

end Lsp

end Langsvr
