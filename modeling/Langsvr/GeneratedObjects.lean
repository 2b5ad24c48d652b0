import Langsvr.RecursionLimits
import Langsvr.TypedDeclarations

/-!
# The objects of generated code

With enough nested calls, an object of a generated type is value-initialised as in the codec.
-/

namespace Langsvr

open Filter (Eventually atTop)
open Lsp (LspType LspValue Declarations)
open RecursionLimits

namespace CppUnit

section Positions

variable {c : CppStructure} {names : List String} {done ms : List (Bool × CppType × String)}
  {m : Bool × CppType × String}

theorem memberIndex_eq (hdistinct : (c.members.map fun m => m.2.2).Nodup)
    (hc : c.members = done ++ m :: ms) : c.memberIndex m.2.2 = done.length :=
  ListRelations.findIdx_of_nodup (f := fun m : Bool × CppType × String => m.2.2) hdistinct
    (by rw [hc]; simp)

theorem memberType_eq (hc : c.members = done ++ m :: ms) : c.memberType done.length = m.2.1 := by
  rw [CppStructure.memberType, hc]
  simp

theorem baseIndex_eq (hbases : c.bases = names.map .named) (hnodup : names.Nodup) {i : ℕ}
    {name : String} (hi : names[i]? = some name) : c.baseIndex name = i := by
  have hfind := ListRelations.findIdx_of_nodup (f := id) (by simpa using hnodup) hi
  rw [CppStructure.baseIndex, hbases, List.findIdx_map]
  exact hfind

end Positions

section Names

variable {u : CppUnit} {env : Declarations} (h : u.Compiles env)
include h

theorem Compiles.default_alias {name : String} {ct : CppType} (ha : (name, ct) ∈ u.program.aliases)
    (n : ℕ) : u.default (n + 1) (.named name) = u.default n ct := by
  simp only [default, h.find_alias ha]

end Names

/-- What holds for the name of a structure holds for every name that denotes it. -/
theorem eventually_denotes {u : CppUnit} {Q : String → ℕ → Prop} {name : String} {d : CppStructure}
    (hd : u.program.Denotes name d)
    (halias : ∀ a name n, (a, CppType.named name) ∈ u.program.aliases → Q name n → Q a (n + 1))
    (hstructure : d ∈ u.program.structures → ∀ᶠ n in atTop, Q d.name n) :
    ∀ᶠ n in atTop, Q name n := by
  induction hd with
  | declared hc => exact hstructure hc
  | typeAlias ha _ ih => exact eventually_succ (ih hstructure) fun n => halias _ _ n ha

section Defaults

variable {u : CppUnit} {env : Declarations}

theorem default_eq (ds : Declarations) (t : LspType) :
    ds.default t = t.defaultWith fun n => ds.default (.reference n) := by
  cases ds with
  | nil => cases t <;> rfl
  | cons d ds => cases t <;> rfl

theorem defaultsWith_eq_map (f : String → LspValue) (ts : List LspType) :
    LspType.defaultsWith f ts = ts.map (LspType.defaultWith f) := by
  induction ts with
  | nil => rfl
  | cons t ts ih => rw [LspType.defaultsWith, ih, List.map_cons]

/-- The structures of some declarations are value-initialised as in the codec. -/
def DefaultsAgree (u : CppUnit) (ds : Declarations) : Prop :=
  ∀ c ∈ u.program.structures, c.name ∈ ds.names →
    ∀ᶠ n in atTop, u.default n (.named c.name) = ds.default (.reference c.name)

theorem Compiles.default_stands (h : u.Compiles env) {ds : Declarations} (hds : u.DefaultsAgree ds)
    {ct : CppType} {t : LspType} (ht : u.Stands ct t) (hheld : ∀ n ∈ t.held, n ∈ ds.names) :
    ∀ᶠ n in atTop, u.default n ct = ds.default t := by
  simp only [default_eq ds t]
  induction ht with
  | tuple hl hts ih =>
    simp only [LspType.held, LspType.mem_heldAll] at hheld
    have hmap := eventually_map_eq (f := fun n => u.default n)
      (g := LspType.defaultWith fun n => ds.default (.reference n)) hl fun p hp =>
        ih p hp fun n hn => hheld n ⟨p.2, (List.of_mem_zip hp).2, hn⟩
    refine eventually_succ hmap fun n hn => ?_
    rw [LspType.defaultWith, defaultsWith_eq_map, ← hn]
    rfl
  | typeAlias ha _ _ ih =>
    exact eventually_succ (ih hheld) fun n hn => (h.default_alias ha n).trans hn
  | @lspAny ct ha =>
    obtain ⟨rfl, -⟩ := h.lspAny ct ha
    have hempty : ∀ᶠ n in atTop, u.default n (.oneOf lspAnyTypes) = .oneOfEmpty :=
      eventually_of_succ fun n => rfl
    exact eventually_succ hempty fun n hn => (h.default_alias ha n).trans hn
  | declared hc => exact hds _ hc (hheld _ (List.mem_singleton_self _))
  | @enumeration e he =>
    have hfind := h.find_enumeration he
    rw [Lsp.Enumeration.generated_name] at hfind
    exact eventually_of_succ fun n => by simp only [default, hfind, LspType.defaultWith]
  | _ => exact eventually_of_succ fun n => rfl

def objectDefault (u : CppUnit) (n : ℕ) (c : CppStructure) : LspValue :=
  .struct (c.members.map fun m => if m.1 then .absent else u.default n m.2.1)
    (c.bases.map (u.default n))

theorem Compiles.default_structure (h : u.Compiles env) {c : CppStructure}
    (hc : c ∈ u.program.structures) (n : ℕ) :
    u.default (n + 1) (.named c.name) = u.objectDefault n c := by
  simp only [default, h.find_structure hc]
  rfl

section Objects

variable {ds : Declarations}

private theorem default_members (h : u.Compiles env) (hds : u.DefaultsAgree ds)
    {ms : List (Bool × CppType × String)} {ps : List Lsp.Property}
    (hms : List.Forall₂ (fun m p => m.1 = p.optional ∧ u.Stands m.2.1 p.type) ms ps)
    (hheld : ∀ p ∈ ps, p.optional = false → ∀ n ∈ p.type.held, n ∈ ds.names) :
    ∀ᶠ n in atTop, (ms.map fun m => if m.1 then .absent else u.default n m.2.1) =
      ps.map (Lsp.Property.default ds.default) := by
  refine eventually_map_eq (f := fun n m => if m.1 then .absent else u.default n m.2.1)
    hms.length_eq fun q hq => ?_
  obtain ⟨hoptional, hstands⟩ := (List.forall₂_iff_zip.mp hms).2 hq
  rw [Lsp.Property.default, ← hoptional]
  cases ho : q.1.1 with
  | true => exact .of_forall fun n => rfl
  | false =>
    simp only [Bool.false_eq_true, if_false]
    exact h.default_stands hds hstands
      (hheld q.2 (List.of_mem_zip hq).2 (hoptional.symm.trans ho))

mutual

private theorem default_implements (h : u.Compiles env) (hds : u.DefaultsAgree ds)
    (s : Lsp.Structure) {c : CppStructure} (hc : u.Implements s c)
    (hheld : ∀ n ∈ s.held, n ∈ ds.names) :
    ∀ᶠ n in atTop, u.objectDefault n c = s.default ds.default := by
  cases s with
  | mk kind ps bs =>
    simp only [Lsp.Structure.held, List.mem_append, List.mem_flatMap, List.mem_filter] at hheld
    obtain ⟨names, hfields, hbases⟩ := hc
    have hms := default_members h hds hfields.members fun p hp ho n hn =>
      hheld n (.inl ⟨p, ⟨hp, by rw [ho]; rfl⟩, hn⟩)
    have hbs := default_bases h hds bs hbases fun n hn => hheld n (.inr hn)
    filter_upwards [hms, hbs] with n hm hb
    rw [objectDefault, hfields.bases, hm, hb, Lsp.Structure.default]

private theorem default_bases (h : u.Compiles env) (hds : u.DefaultsAgree ds)
    (bs : List Lsp.Structure) {names : List String} (hbs : u.ImplementsBases bs names)
    (hheld : ∀ n ∈ Lsp.Structure.heldBases bs, n ∈ ds.names) :
    ∀ᶠ n in atTop, (names.map CppType.named).map (u.default n) =
      Lsp.Structure.defaultBases ds.default bs := by
  cases bs with
  | nil =>
    cases names with
    | nil => exact .of_forall fun n => rfl
    | cons name names => exact hbs.elim
  | cons b bs =>
    cases names with
    | nil => exact hbs.elim
    | cons name names =>
      simp only [Lsp.Structure.heldBases, List.mem_append] at hheld
      obtain ⟨⟨d, hd, hbd⟩, hbs⟩ := hbs
      have hb := default_implements h hds b hbd fun n hn => hheld n (.inl hn)
      have hname : ∀ᶠ n in atTop, u.default n (.named name) = b.default ds.default := by
        refine eventually_denotes
          (Q := fun name n => u.default n (.named name) = b.default ds.default) hd
          (fun a other n ha hn => (h.default_alias ha n).trans hn) fun hmem => ?_
        exact eventually_succ hb fun n hn => (h.default_structure hmem n).trans hn
      filter_upwards [hname, default_bases h hds bs hbs fun n hn => hheld n (.inr hn)] with n hn hns
      rw [List.map_cons, List.map_cons, hn, hns, Lsp.Structure.defaultBases]

end

end Objects

/-- Structures are value-initialised as in the codec. -/
theorem Compiles.defaultsAgree (h : u.Compiles env) {ds : Declarations} (hds : ds <:+ env) :
    u.DefaultsAgree ds := by
  induction ds with
  | nil => exact fun c _ hname => by cases hname
  | cons d ds ih =>
    obtain ⟨before, rfl⟩ := hds
    have hordered := Lsp.Declarations.Ordered.of_append h.ordered
    have hagree := ih ⟨before ++ [d], by simp⟩
    intro c hc hname
    by_cases hd : d.name = c.name
    · have himplements := (h.structures c hc).2
      rw [← hd, Lsp.Declarations.Ordered.find_append h.ordered] at himplements
      have hdefault := default_implements h hagree d.definition himplements hordered.2.1
      have heq : Declarations.default (d :: ds) (.reference c.name) =
          d.definition.default (Declarations.default ds) := by
        rw [← hd]
        exact if_pos rfl
      rw [heq]
      exact eventually_succ hdefault fun n hn => (h.default_structure hc n).trans hn
    · have heq : Declarations.default (d :: ds) (.reference c.name) =
          Declarations.default ds (.reference c.name) := if_neg hd
      rw [heq]
      rcases List.mem_cons.mp hname with hname | hname
      · exact absurd hname.symm hd
      · exact hagree c hc hname

theorem Compiles.held_subset (h : u.Compiles env) {ct : CppType} {t : LspType}
    (ht : u.Stands ct t) : ∀ n ∈ t.held, n ∈ env.names := by
  induction ht with
  | tuple hl hts ih =>
    intro n hn
    obtain ⟨t, ht, hn⟩ := LspType.mem_heldAll.mp hn
    obtain ⟨i, hi, rfl⟩ := List.mem_iff_getElem.mp ht
    exact ih _ (ListRelations.mem_zip_getElem hl hi) n hn
  | typeAlias _ _ _ ih => exact ih
  | declared hc =>
    intro n hn
    rw [List.mem_singleton.mp hn]
    exact (h.structures _ hc).1
  | _ => simp [LspType.held]

theorem Compiles.default_eq (h : u.Compiles env) {ct : CppType} {t : LspType} (ht : u.Stands ct t) :
    ∀ᶠ n in atTop, u.default n ct = env.default t :=
  h.default_stands (h.defaultsAgree (List.suffix_refl env)) ht (h.held_subset ht)

end Defaults

end CppUnit

end Langsvr
