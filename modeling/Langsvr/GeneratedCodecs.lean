import Langsvr.GeneratedObjects

/-!
# The generated code decodes as the codec

Generated code that compiles to declarations of the codec computes what the codec computes:
with enough nested calls `Decode` yields the same result for every JSON value and every output.
-/

namespace Langsvr

open Filter (Eventually atTop)
open Json (Value Member)
open Lsp (LspType LspValue Decoder Declarations decodeProperties decodeBases decodeStructure)
open RecursionLimits

namespace CppUnit

section Statements

variable {u : CppUnit} {c : CppStructure} {kind : Option String} {ps : List Lsp.Property}
  {names : List String} {dec : CppType → Decoder} {fresh : CppType → LspValue}
  {dec' : LspType → Decoder} {fresh' : LspType → LspValue} {v : Value}

/-- The block for a property decodes its member, wherever the member is. -/
theorem run_property (hdistinct : (c.members.map fun m => m.2.2).Nodup)
    (done : List (Bool × CppType × String)) {m : Bool × CppType × String}
    {ms : List (Bool × CppType × String)} (hc : c.members = done ++ m :: ms) {p : Lsp.Property}
    (hoptional : m.1 = p.optional) (hfresh : fresh m.2.1 = fresh' p.type)
    (hdec : ∀ w out, w.depth < v.depth → dec m.2.1 w out = dec' p.type w out)
    {xs : List LspValue} (hxs : xs.length = done.length) (out : LspValue) (ys ss : List LspValue) :
    c.runDecodeBlock dec fresh v (decodeBlock m p)
        (.struct (xs ++ (if m.1 then out.asOptional else out) :: ys) ss) = (do
      let x ← Lsp.decodeProperty dec' fresh' p v out
      return .struct (xs ++ x :: ys) ss) := by
  have hindex : c.memberIndex m.2.2 = xs.length := (memberIndex_eq hdistinct hc).trans hxs.symm
  have htype : c.memberType xs.length = m.2.1 := hxs ▸ memberType_eq hc
  rw [decodeBlock, Lsp.decodeProperty, hoptional]
  cases hp : p.optional with
  | true =>
    simp only [if_true, CppStructure.runDecodeBlock, hindex, hfresh]
    cases hhas : v.has p.jsonName with
    | false =>
      simp only [Bool.false_eq_true, if_false]
      rfl
    | true =>
      simp only [if_true]
      cases hget : v.get p.jsonName with
      | error f => rfl
      | ok w =>
        have hvalue := hdec w (fresh' p.type) (Lsp.depth_get hget)
        simp only [bind, Except.bind, pure, Except.pure, hvalue]
        cases dec' p.type w (fresh' p.type) with
        | error f => rfl
        | ok y => simp [LspValue.setMember, LspValue.members, LspValue.bases]
  | false =>
    simp only [Bool.false_eq_true, if_false, CppStructure.runDecodeBlock, hindex, htype]
    cases hget : v.get p.jsonName with
    | error f => rfl
    | ok w =>
      have hmember : LspValue.member (.struct (xs ++ out :: ys) ss) xs.length = out := by
        simp [LspValue.member, LspValue.members]
      simp only [bind, Except.bind, pure, Except.pure, hmember, hdec w out (Lsp.depth_get hget)]
      cases dec' p.type w out with
      | error f => rfl
      | ok y => simp [LspValue.setMember, LspValue.members, LspValue.bases]

/-- The blocks for the properties that are left, when the members before them are decoded. -/
theorem run_properties (hdistinct : (c.members.map fun m => m.2.2).Nodup)
    (done : List (Bool × CppType × String)) {ms : List (Bool × CppType × String)}
    (hc : c.members = done ++ ms)
    (hms : List.Forall₂ (fun m p => m.1 = p.optional ∧ fresh m.2.1 = fresh' p.type ∧
      ∀ w out, w.depth < v.depth → dec m.2.1 w out = dec' p.type w out) ms ps)
    (xs outs ss : List LspValue) (hxs : xs.length = done.length) :
    (List.zipWith decodeBlock ms ps).foldlM
        (fun out block => c.runDecodeBlock dec fresh v block out)
        (.struct (xs ++ CppStructure.dataMembers ms outs) ss) = (do
      let ys ← decodeProperties dec' fresh' v ps outs
      return .struct (xs ++ ys) ss) := by
  induction hms generalizing done xs outs with
  | nil => rfl
  | @cons m p ms ps hm hms ih =>
    rw [List.zipWith_cons_cons, List.foldlM_cons, CppStructure.dataMembers,
      run_property hdistinct done hc hm.1 hm.2.1 hm.2.2 hxs, decodeProperties, bind_assoc,
      bind_assoc]
    refine bind_congr fun x => ?_
    have hx := ih (done ++ [m]) (by simp [hc]) (xs ++ [x]) outs.tail (by simp [hxs])
    simpa using hx

theorem run_bases (hbases : c.bases = names.map .named) (hnodup : names.Nodup) (done : List String)
    {ns : List String} {bs : List Lsp.Structure} (hn : names = done ++ ns)
    (hbs : List.Forall₂ (fun name b => ∀ out, dec (.named name) v out =
      decodeStructure dec' fresh' b v out) ns bs)
    (ms xs outs : List LspValue) (hxs : xs.length = done.length) :
    (ns.map .base).foldlM (fun out block => c.runDecodeBlock dec fresh v block out)
        (.struct ms (xs ++ CppStructure.baseObjects (ns.map .named) outs)) = (do
      let ys ← decodeBases dec' fresh' v bs outs
      return .struct ms (xs ++ ys)) := by
  induction hbs generalizing done xs outs with
  | nil => rfl
  | @cons name b ns bs hb hbs ih =>
    have hindex : c.baseIndex name = xs.length := by
      apply baseIndex_eq hbases hnodup
      rw [hn, hxs]
      simp
    have hstep : ∀ ys, c.runDecodeBlock dec fresh v (.base name)
        (.struct ms (xs ++ outs.headD .null :: ys)) = (do
          let s ← decodeStructure dec' fresh' b v (outs.headD .null)
          return .struct ms (xs ++ s :: ys)) := by
      intro ys
      have hbase : LspValue.base (.struct ms (xs ++ outs.headD .null :: ys)) xs.length =
          outs.headD .null := by
        simp [LspValue.base, LspValue.bases]
      simp only [CppStructure.runDecodeBlock, hindex, hbase, hb]
      refine bind_congr fun s => ?_
      simp [LspValue.setBase, LspValue.members, LspValue.bases]
    rw [List.map_cons, List.map_cons, List.foldlM_cons, CppStructure.baseObjects, hstep,
      decodeBases, bind_assoc, bind_assoc]
    refine bind_congr fun s => ?_
    have hs := ih (done ++ [name]) (by simp [hn]) (xs ++ [s]) outs.tail (by simp [hxs])
    simpa using hs

/-- The body of `Decode` computes what the codec computes for the definition. -/
theorem runDecode_eq (hfields : u.Fields c kind ps names) {bs : List Lsp.Structure}
    (hms : List.Forall₂ (fun m p => m.1 = p.optional ∧ fresh m.2.1 = fresh' p.type ∧
      ∀ w out, w.depth < v.depth → dec m.2.1 w out = dec' p.type w out) c.members ps)
    (hbs : List.Forall₂ (fun name b => ∀ out, dec (.named name) v out =
      decodeStructure dec' fresh' b v out) names bs) (out : LspValue) :
    c.runDecode dec fresh v out = decodeStructure dec' fresh' (.mk kind ps bs) v out := by
  have hproperties := fun ss => run_properties hfields.distinct [] rfl hms [] out.members ss rfl
  have hinherited := fun ms => @run_bases c names dec fresh dec' fresh' v hfields.bases
    hfields.basesDistinct [] names bs rfl hbs ms [] out.bases rfl
  simp only [List.nil_append] at hproperties hinherited
  rw [CppStructure.runDecode, decodeStructure]
  by_cases hkind : v.kind = .object
  · rw [if_neg (not_not_intro hkind), if_neg (not_not_intro hkind), hfields.decode,
      List.foldlM_append, List.foldlM_append]
    have hkinds : (kind.toList.map DecodeBlock.matchKind).foldlM
        (fun out block => c.runDecodeBlock dec fresh v block out) (c.object out) = (do
          Lsp.decodeKind v kind
          return c.object out) := by
      cases kind with
      | none => rfl
      | some k => simp [CppStructure.runDecodeBlock, Lsp.decodeKind]
    rw [hkinds]
    simp only [bind_assoc, pure_bind]
    refine bind_congr fun _ => ?_
    rw [CppStructure.object, hproperties, bind_assoc]
    refine bind_congr fun xs => ?_
    rw [pure_bind, hfields.bases, hinherited]
  · rw [if_pos hkind, if_pos hkind]

end Statements

section Names

variable {u : CppUnit} {env : Declarations} (h : u.Compiles env)
include h

theorem Compiles.decode_alias {name : String} {ct : CppType} (ha : (name, ct) ∈ u.program.aliases)
    (n : ℕ) : u.decode (n + 1) (.named name) = u.decode n ct := by
  simp only [decode, h.find_alias ha]

theorem Compiles.decode_structure {c : CppStructure} (hc : c ∈ u.program.structures) (n : ℕ) :
    u.decode (n + 1) (.named c.name) = c.runDecode (u.decode n) (u.default n) := by
  simp only [decode, h.find_structure hc]

end Names

section Decoding

variable {u : CppUnit} {env : Declarations}

/-- `Decode` computes what the codec computes, for the JSON values up to some depth. -/
def DecodesBelow (u : CppUnit) (env : Declarations) (d : ℕ) (ct : CppType) (t : LspType) (n : ℕ) :
    Prop :=
  ∀ v : Value, v.depth < d → ∀ out, u.decode n ct v out = Lsp.decode env t v out

section Layers

variable {d : ℕ}

theorem decodesBelow_vector (h : u.Compiles env) {ct : CppType} {t : LspType} (ht : u.Stands ct t)
    (hdec : ∀ᶠ n in atTop, u.DecodesBelow env d ct t n) :
    ∀ᶠ n in atTop, u.DecodesBelow env (d + 1) (.vector ct) (.vector t) n := by
  refine eventually_succ (hdec.and (h.default_eq ht)) fun n hn v hv out => ?_
  have hagree : Lsp.AgreeBelow (fun _ => u.decode n ct) (fun _ => Lsp.decode env t) v :=
    fun _ w out hw => hn.1 w (by omega) out
  rw [Lsp.decode_eq, decode, hn.2]
  exact Lsp.decodeVector_congr hagree t _ out

theorem decodesBelow_map (h : u.Compiles env) {key ct : CppType} {t : LspType} (ht : u.Stands ct t)
    (hdec : ∀ᶠ n in atTop, u.DecodesBelow env d ct t n) :
    ∀ᶠ n in atTop, u.DecodesBelow env (d + 1) (.map key ct) (.map t) n := by
  refine eventually_succ (hdec.and (h.default_eq ht)) fun n hn v hv out => ?_
  have hagree : Lsp.AgreeBelow (fun _ => u.decode n ct) (fun _ => Lsp.decode env t) v :=
    fun _ w out hw => hn.1 w (by omega) out
  rw [Lsp.decode_eq, decode, hn.2]
  exact Lsp.decodeMap_congr hagree t _ out

private theorem decodeItems_zip {α β : Type} {f : α → Decoder} {g : β → Decoder} {v : Value}
    {as : List α} {bs : List β} (hl : as.length = bs.length)
    (h : ∀ p ∈ as.zip bs, ∀ w out, w.depth < v.depth → f p.1 w out = g p.2 w out) (i : ℕ)
    (outs : List LspValue) :
    Lsp.decodeItems v (as.map f) i outs = Lsp.decodeItems v (bs.map g) i outs := by
  induction as generalizing bs i outs with
  | nil =>
    cases bs with
    | nil => rfl
    | cons b bs => cases hl
  | cons a as ih =>
    cases bs with
    | nil => cases hl
    | cons b bs =>
      simp only [List.zip_cons_cons, List.forall_mem_cons] at h
      simp only [List.map_cons, Lsp.decodeItems]
      cases hi : v.getIndex i with
      | error f => rfl
      | ok w => simp only [h.1 w _ (Lsp.depth_getIndex hi), ih (Nat.succ.inj hl) h.2]

theorem decodesBelow_tuple {cts : List CppType} {ts : List LspType} (hl : cts.length = ts.length)
    (hdec : ∀ p ∈ cts.zip ts, ∀ᶠ n in atTop, u.DecodesBelow env d p.1 p.2 n) :
    ∀ᶠ n in atTop, u.DecodesBelow env (d + 1) (.tuple cts) (.tuple ts) n := by
  refine eventually_succ (eventually_forall_mem hdec) fun n hn v hv out => ?_
  rw [Lsp.decode_eq, decode, Lsp.decodeLayer, Lsp.decodeTuple, Lsp.decodeTuple, List.length_map,
    List.length_map, hl, decodeItems_zip hl fun p hp w o hw => hn p hp w (by omega) o]

theorem decodesBelow_oneOf (h : u.Compiles env) {cts : List CppType} {ts : List LspType}
    (hl : cts.length = ts.length) (hts : ∀ p ∈ cts.zip ts, u.Stands p.1 p.2)
    (hdec : ∀ p ∈ cts.zip ts, ∀ᶠ n in atTop, u.DecodesBelow env d p.1 p.2 n) :
    ∀ᶠ n in atTop, u.DecodesBelow env d (.oneOf cts) (.oneOf ts) n := by
  have hdefaults : ∀ p ∈ cts.zip ts, ∀ᶠ n in atTop, u.default n p.1 = env.default p.2 :=
    fun p hp => h.default_eq (hts p hp)
  refine eventually_succ ((eventually_forall_mem hdec).and (eventually_forall_mem hdefaults))
    fun n hn v hv out => ?_
  rw [Lsp.decode_oneOf, decode, Lsp.decodeOneOf, Lsp.decodeOneOf]
  rw [Lsp.tryTypes_congr 0]
  rw [List.map_map, List.map_map]
  apply List.ext_getElem (by simpa using hl)
  intro i hi hi'
  simp only [List.length_map] at hi hi'
  have hmem := ListRelations.mem_zip_getElem hl hi'
  simp only [List.getElem_map, Function.comp_apply, hn.2 _ hmem]
  exact hn.1 _ hmem v hv _

section Structures

private theorem decode_members (h : u.Compiles env)
    (hdec : ∀ ct t, u.Stands ct t → ∀ᶠ n in atTop, u.DecodesBelow env d ct t n)
    {ms : List (Bool × CppType × String)} {ps : List Lsp.Property}
    (hms : List.Forall₂ (fun m p => m.1 = p.optional ∧ u.Stands m.2.1 p.type) ms ps) :
    ∀ᶠ n in atTop, ∀ v : Value, v.depth < d + 1 → List.Forall₂ (fun m p => m.1 = p.optional ∧
      u.default n m.2.1 = env.default p.type ∧ ∀ w out, w.depth < v.depth →
        u.decode n m.2.1 w out = Lsp.decode env p.type w out) ms ps := by
  obtain ⟨hl, hms⟩ := List.forall₂_iff_zip.mp hms
  have hall : ∀ q ∈ ms.zip ps, ∀ᶠ n in atTop, u.DecodesBelow env d q.1.2.1 q.2.type n ∧
      u.default n q.1.2.1 = env.default q.2.type := fun q hq =>
    (hdec _ _ (hms hq).2).and (h.default_eq (hms hq).2)
  refine (eventually_forall_mem hall).mono fun n hn v hv => ?_
  refine List.forall₂_iff_zip.mpr ⟨hl, fun {m p} hq => ⟨(hms hq).1, (hn _ hq).2, ?_⟩⟩
  exact fun w out hw => (hn _ hq).1 w (by omega) out

mutual

private theorem decode_implements (h : u.Compiles env)
    (hdec : ∀ ct t, u.Stands ct t → ∀ᶠ n in atTop, u.DecodesBelow env d ct t n)
    (s : Lsp.Structure) {c : CppStructure} (hc : u.Implements s c) :
    ∀ᶠ n in atTop, ∀ v : Value, v.depth < d + 1 → ∀ out,
      c.runDecode (u.decode n) (u.default n) v out =
        decodeStructure (Lsp.decode env) env.default s v out := by
  cases s with
  | mk kind ps bs =>
    obtain ⟨names, hfields, hbases⟩ := hc
    filter_upwards [decode_members h hdec hfields.members, decode_bases h hdec bs hbases]
      with n hms hbs v hv out
    exact runDecode_eq hfields (hms v hv) (hbs v hv) out

private theorem decode_bases (h : u.Compiles env)
    (hdec : ∀ ct t, u.Stands ct t → ∀ᶠ n in atTop, u.DecodesBelow env d ct t n)
    (bs : List Lsp.Structure) {names : List String} (hbs : u.ImplementsBases bs names) :
    ∀ᶠ n in atTop, ∀ v : Value, v.depth < d + 1 → List.Forall₂ (fun name b => ∀ out,
      u.decode n (.named name) v out = decodeStructure (Lsp.decode env) env.default b v out)
        names bs := by
  cases bs with
  | nil =>
    cases names with
    | nil => exact .of_forall fun n v hv => .nil
    | cons name names => exact hbs.elim
  | cons b bs =>
    cases names with
    | nil => exact hbs.elim
    | cons name names =>
      obtain ⟨⟨c, hc, hbc⟩, hbs⟩ := hbs
      have hname : ∀ᶠ n in atTop, ∀ v : Value, v.depth < d + 1 → ∀ out,
          u.decode n (.named name) v out =
            decodeStructure (Lsp.decode env) env.default b v out := by
        refine eventually_denotes (Q := fun name n => ∀ v : Value, v.depth < d + 1 → ∀ out,
          u.decode n (.named name) v out = decodeStructure (Lsp.decode env) env.default b v out) hc
          (fun a other n ha hn v hv out => ?_) fun hmem => ?_
        · rw [h.decode_alias ha]
          exact hn v hv out
        · refine eventually_succ (decode_implements h hdec b hbc) fun n hn v hv out => ?_
          rw [h.decode_structure hmem]
          exact hn v hv out
      filter_upwards [hname, decode_bases h hdec bs hbs] with n hn hns v hv
      exact .cons (hn v hv) (hns v hv)

end

end Structures

private theorem decodesBelow_lspAny (h : u.Compiles env)
    (hdec : ∀ ct t, u.Stands ct t → ∀ᶠ n in atTop, u.DecodesBelow env d ct t n) {ct : CppType}
    (ha : ("LSPAny", ct) ∈ u.program.aliases) :
    ∀ᶠ n in atTop, u.DecodesBelow env (d + 1) (.named "LSPAny") .lspAny n := by
  obtain ⟨-, hobject, harray⟩ := h.lspAny ct ha
  obtain ⟨rfl, hstands⟩ := h.lspAny_stands ha
  have hany : u.Stands (.named "LSPAny") .lspAny := .lspAny ha
  have halias : ∀ {name : String} {ct : CppType} {t : LspType},
      (name, ct) ∈ u.program.aliases → (∀ᶠ n in atTop, u.DecodesBelow env (d + 1) ct t n) →
        ∀ᶠ n in atTop, u.DecodesBelow env (d + 1) (.named name) t n := fun ha hn =>
    eventually_succ hn fun n hn v hv out => by
      rw [h.decode_alias ha]
      exact hn v hv out
  have honeOf : ∀ᶠ n in atTop,
      u.DecodesBelow env (d + 1) (.oneOf lspAnyTypes) (.oneOf Lsp.lspAnyItems) n := by
    apply decodesBelow_oneOf h rfl hstands
    simp only [lspAnyTypes, Lsp.lspAnyItems, List.zip_cons_cons, List.zip_nil_left,
      List.forall_mem_cons]
    refine ⟨halias hobject (decodesBelow_map h hany (hdec _ _ hany)),
      halias harray (decodesBelow_vector h hany (hdec _ _ hany)), ?_⟩
    exact ⟨eventually_of_succ fun n v hv out => rfl, eventually_of_succ fun n v hv out => rfl,
      eventually_of_succ fun n v hv out => rfl, eventually_of_succ fun n v hv out => rfl,
      eventually_of_succ fun n v hv out => rfl, eventually_of_succ fun n v hv out => rfl, by simp⟩
  refine eventually_succ honeOf fun n hn v hv out => ?_
  rw [h.decode_alias ha, Lsp.decode_lspAny]
  exact hn v hv out

end Layers

/-- Generated code that compiles to declarations of the codec decodes as the codec does. -/
theorem decodesBelow (h : u.Compiles env) (d : ℕ) {ct : CppType} {t : LspType}
    (ht : u.Stands ct t) : ∀ᶠ n in atTop, u.DecodesBelow env d ct t n := by
  induction d generalizing ct t with
  | zero => exact .of_forall fun n v hv => by omega
  | succ d ih =>
    have hdec : ∀ ct t, u.Stands ct t → ∀ᶠ n in atTop, u.DecodesBelow env d ct t n :=
      fun ct t => ih
    induction ht with
    | vector ht _ => exact decodesBelow_vector h ht (hdec _ _ ht)
    | map _ ht _ _ => exact decodesBelow_map h ht (hdec _ _ ht)
    | tuple hl hts _ => exact decodesBelow_tuple hl fun p hp => hdec _ _ (hts p hp)
    | oneOf hl hts ih => exact decodesBelow_oneOf h hl hts ih
    | typeAlias ha _ _ ih =>
      refine eventually_succ ih fun n hn v hv out => ?_
      rw [h.decode_alias ha]
      exact hn v hv out
    | lspAny ha => exact decodesBelow_lspAny h hdec ha
    | @declared c hc =>
      have hbody := decode_implements h hdec _ (h.structures c hc).2
      refine eventually_succ hbody fun n hn v hv out => ?_
      rw [h.decode_structure hc, Lsp.decode_eq]
      exact hn v hv out
    | @enumeration e he =>
      have hfind := h.find_enumeration he
      rw [Lsp.Enumeration.generated_name] at hfind
      refine eventually_of_succ fun n v hv out => ?_
      rw [Lsp.decode_eq, Lsp.decodeLayer, ← Lsp.decode_generated]
      simp only [decode, hfind]
    | _ => exact eventually_of_succ fun n v hv out => rfl

end Decoding

end CppUnit

end Langsvr
