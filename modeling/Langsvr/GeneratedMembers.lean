import Langsvr.GeneratedStructures
import Mathlib.Logic.Relation

/-!
# The members of generated structures

The members that the generated functions of a structure read and write are those that the
structure keeps and those of everything that it extends. The properties that it mixes in are
not among them.
-/

namespace Langsvr

namespace MetaModel

variable (U : Unicode) (m : MetaModel)

def Refers (types : List TypeImpl) (s : Structure) : Prop :=
  ∃ name, TypeImpl.reference name ∈ types ∧ Denotes U m (U.className name) s

def Extends (s t : Structure) : Prop := Refers U m s.extendsTypes t

def MixesIn (s t : Structure) : Prop := Refers U m s.mixins t

/-- The property set of a structure: the names of its properties and, transitively, of the
properties of the structures that it extends or mixes in. -/
def HasMember (s : Structure) (name : String) : Prop :=
  ∃ t, Relation.ReflTransGen (fun s t => Extends U m s t ∨ MixesIn U m s t) s t ∧
    ∃ p ∈ t.properties, p.name = name

/-- The names of the properties that are kept by a structure or by one that it extends. -/
def HasKept (s : Structure) (name : String) : Prop :=
  ∃ t, Relation.ReflTransGen (Extends U m) s t ∧ t.Keeps name

/-- Every property that a structure gets from a structure that it extends or mixes in has the
name of a property that is kept by the structure or by one that it extends. -/
def Covered (s : Structure) : Prop :=
  ∀ t, Relation.ReflTransGen (fun s t => Extends U m s t ∨ MixesIn U m s t) s t →
    ∀ p ∈ t.properties, HasKept U m s p.name

/-- No name that is kept has a meaning of its own in a string literal. -/
def KeptVerbatim (s : Structure) : Prop :=
  ∀ name, HasKept U m s name → Verbatim name

end MetaModel

namespace Resolver

variable {U : Unicode} {m : MetaModel} {p : Protocol} {prog : CppProgram}

namespace Output

variable {own bases : CppStructure → List String}

/-- The members that the code of a structure names, by itself or through its bases, are those
whose names are printed for what is kept by the structure or by one that it extends. -/
theorem collects_iff (h : Output U m prog)
    (hown : ∀ s c, Generated U s c → ∀ name, name ∈ own c ↔
      ∃ text, s.Keeps text ∧ literal text = some name)
    (hbases : ∀ s c, Generated U s c → ∀ b, b ∈ bases c ↔
      ∃ name, .reference name ∈ s.extendsTypes ∧ U.className name = b)
    {s : MetaModel.Structure} {c : CppStructure} (hsc : Generated U s c) {name : String} :
    prog.Collects own bases c name ↔
      ∃ text, MetaModel.HasKept U m s text ∧ literal text = some name := by
  constructor
  · intro hc
    induction hc generalizing s with
    | own hname =>
      obtain ⟨text, htext, hname⟩ := (hown s _ hsc _).mp hname
      exact ⟨text, ⟨s, .refl, htext⟩, hname⟩
    | base hb hd _ ih =>
      obtain ⟨base, href, rfl⟩ := (hbases s _ hsc _).mp hb
      obtain ⟨t, ht, htd⟩ := h.denotes_metaModel hd
      obtain ⟨text, ⟨u, htu, hu⟩, hname⟩ := ih htd
      exact ⟨text, ⟨u, .head ⟨base, href, ht⟩ htu, hu⟩, hname⟩
  · intro hs
    obtain ⟨text, ⟨t, hst, ht⟩, hname⟩ := hs
    induction hst using Relation.ReflTransGen.head_induction_on generalizing c with
    | refl => exact .own ((hown t c hsc name).mpr ⟨text, ht, hname⟩)
    | head hsu _ ih =>
      obtain ⟨base, href, hu⟩ := hsu
      obtain ⟨d, hd, hud⟩ := h.denotes_code hu
      exact .base ((hbases _ c hsc _).mpr ⟨base, href, rfl⟩) hd (ih hud)

theorem reads_iff (h : Output U m prog) {s : MetaModel.Structure} {c : CppStructure}
    (hsc : Generated U s c) {name : String} : prog.Reads c name ↔
      ∃ text, MetaModel.HasKept U m s text ∧ literal text = some name := by
  refine h.collects_iff ?_ ?_ hsc
  · intro s c hsc name
    obtain ⟨t, ht, hown, -⟩ := generated_spec hsc
    simp only [ht.decodeMembers.mem_iff, hown]
  · intro s c hsc b
    obtain ⟨t, ht, -, hbases⟩ := generated_spec hsc
    rw [ht.decodeBases]
    exact hbases b

theorem writes_iff (h : Output U m prog) {s : MetaModel.Structure} {c : CppStructure}
    (hsc : Generated U s c) {name : String} : prog.Writes c name ↔
      ∃ text, MetaModel.HasKept U m s text ∧ literal text = some name := by
  refine h.collects_iff ?_ ?_ hsc
  · intro s c hsc name
    obtain ⟨t, ht, hown, -⟩ := generated_spec hsc
    simp only [ht.encodeMembers.mem_iff, hown]
  · intro s c hsc b
    obtain ⟨t, ht, -, hbases⟩ := generated_spec hsc
    rw [ht.encodeBases]
    exact hbases b

end Output

section Members

variable {s : MetaModel.Structure}

theorem name_mem_of_keeps {name : String} (h : s.Keeps name) : ∃ q ∈ s.properties, q.name = name := by
  rcases h with ⟨hk, rfl⟩ | ⟨q, hq, hname⟩
  · cases hl : s.properties.filterMap MetaModel.PropertyOf.literalKind with
    | nil =>
      rw [MetaModel.Structure.kind, hl] at hk
      exact absurd rfl hk
    | cons v vs =>
      have hv : v ∈ s.properties.filterMap MetaModel.PropertyOf.literalKind := by
        rw [hl]
        exact List.mem_cons_self ..
      obtain ⟨q, hq, hqv⟩ := List.mem_filterMap.mp hv
      exact ⟨q, hq, (literalKind_eq_some.mp hqv).1⟩
  · exact ⟨q, (List.mem_filter.mp hq).1, hname⟩

/-- The properties of a structure and of everything that a name can denote. -/
def propertyNames (m : MetaModel) (s : MetaModel.Structure) : List String :=
  ((s :: m.structures).map MetaModel.Structure.properties ++
    m.structures.flatMap fun t => t.properties.flatMap fun q => q.type.literals).flatten.map
      MetaModel.PropertyOf.name

theorem mem_propertyNames_of_kept {name : String} (h : MetaModel.HasKept U m s name) :
    name ∈ propertyNames m s := by
  obtain ⟨t, hst, ht⟩ := h
  obtain ⟨q, hq, rfl⟩ := name_mem_of_keeps ht
  refine List.mem_map_of_mem (List.mem_flatten.mpr ⟨t.properties, ?_, hq⟩)
  have hdenoted : ∀ {n : String} {t : MetaModel.Structure}, MetaModel.Denotes U m n t →
      t.properties ∈ m.structures.map MetaModel.Structure.properties ∨
        t.properties ∈ m.structures.flatMap fun t =>
          t.properties.flatMap fun q => q.type.literals := by
    intro n t ht
    induction ht with
    | declared hs => exact .inl (List.mem_map_of_mem hs)
    | literal hs hp hl =>
      exact .inr (List.mem_flatMap.mpr ⟨_, hs, List.mem_flatMap.mpr ⟨_, hp, hl⟩⟩)
    | typeAlias _ _ _ ih => exact ih
  rw [List.map_cons, List.mem_append, List.mem_cons]
  rcases Relation.ReflTransGen.cases_tail hst with rfl | ⟨u, -, base, -, htd⟩
  · exact .inl (.inl rfl)
  · rcases hdenoted htd with hmem | hmem
    · exact .inl (.inr hmem)
    · exact .inr hmem

/-- The names that are printed for what is kept are the property set exactly for a structure
that is covered, if no name that is kept has a meaning of its own in a literal. -/
theorem covered_iff : (∀ name, (∃ text, MetaModel.HasKept U m s text ∧ literal text = some name) ↔
      MetaModel.HasMember U m s name) ↔
    MetaModel.Covered U m s ∧ MetaModel.KeptVerbatim U m s := by
  have hmembers : ∀ name, MetaModel.HasKept U m s name → MetaModel.HasMember U m s name := by
    intro name hkept
    obtain ⟨t, hst, ht⟩ := hkept
    exact ⟨t, Relation.ReflTransGen.mono (fun _ _ => Or.inl) _ _ hst, name_mem_of_keeps ht⟩
  constructor
  · intro h
    have hverbatim : MetaModel.KeptVerbatim U m s :=
      verbatim_of_values ((List.finite_toSet _).subset fun _ => mem_propertyNames_of_kept)
        fun name hname => (h name).mpr (hmembers name hname)
    refine ⟨fun t hst q hq => ?_, hverbatim⟩
    obtain ⟨text, hkept, htext⟩ := (h q.name).mpr ⟨t, hst, q, hq, rfl⟩
    rw [literal_of_verbatim (hverbatim text hkept), Option.some.injEq] at htext
    rwa [← htext]
  · intro h name
    obtain ⟨hcovered, hverbatim⟩ := h
    constructor
    · intro hkept
      obtain ⟨text, hkept, htext⟩ := hkept
      rw [literal_of_verbatim (hverbatim text hkept), Option.some.injEq] at htext
      exact htext ▸ hmembers text hkept
    · intro hmember
      obtain ⟨t, hst, q, hq, rfl⟩ := hmember
      exact ⟨q.name, hcovered t hst q hq, literal_of_verbatim (hverbatim _ (hcovered t hst q hq))⟩

/-- For every structure of an accepted metamodel one structure is generated, and its functions
read and write exactly the property set of the structure if and only if every property that
the structure mixes in is covered and the kept names are printed as they are. -/
theorem generated_members_iff (hr : resolve U m = .ok (.ok p))
    (hg : Templates.generate p = some prog) (hs : s ∈ m.structures) :
    ∃ c ∈ prog.structures, c.name = U.className s.name ∧
      (∀ c' ∈ prog.structures, c'.name = U.className s.name → c' = c) ∧
      (((∀ name, prog.Reads c name ↔ MetaModel.HasMember U m s name) ∧
          ∀ name, prog.Writes c name ↔ MetaModel.HasMember U m s name) ↔
        MetaModel.Covered U m s ∧ MetaModel.KeptVerbatim U m s) := by
  have hout := output_of_generate hr hg
  obtain ⟨c, hc, hname, hsc⟩ := hout.exists_generated hs
  refine ⟨c, hc, hname, ?_, ?_⟩
  · intro c' hc' hname'
    exact hout.eq_of_name hc' hc (hname'.trans hname.symm)
  · simp only [hout.reads_iff hsc, hout.writes_iff hsc, and_self]
    exact covered_iff

end Members

def asciiTables : Unicode where
  toUpper := Char.toUpper
  toLower := Char.toLower
  toTitle := Char.toUpper
  isUpper := Char.isUpper
  isNumber := Char.isDigit
  isLetter := Char.isAlpha
  isDigit := Char.isDigit
  isSpace := Char.isWhitespace

section VersionedIdentifiers

open MetaModel (Denotes Extends HasKept HasMember Covered KeptVerbatim)

def textDocumentIdentifier : MetaModel.Structure where
  name := "TextDocumentIdentifier"
  properties := [⟨"uri", false, .base "DocumentUri"⟩]

def versionedIdentifier : MetaModel.Structure where
  name := "VersionedTextDocumentIdentifier"
  extendsTypes := [.reference "TextDocumentIdentifier"]
  properties := [⟨"version", false, .base "integer"⟩]

/-- Two structures of the metamodel of the protocol, one of which extends the other. -/
def identifierModel : MetaModel where
  structures := [textDocumentIdentifier, versionedIdentifier]

def textDocumentProtocol : Protocol.Structure where
  name := "TextDocumentIdentifier"
  properties := [⟨"uri", "uri", false, .documentUri⟩]
  nestedNames := ["TextDocumentIdentifier"]

def identifierProtocol : Protocol where
  structures := [textDocumentProtocol,
    { name := "VersionedTextDocumentIdentifier"
      extendsTypes := [.reference "TextDocumentIdentifier"]
      properties := [⟨"version", "version", false, .integer⟩]
      nestedNames := ["VersionedTextDocumentIdentifier"] }]
  references := [("TextDocumentIdentifier", some (.structure textDocumentProtocol))]

def identifierProgram : CppProgram where
  aliases := []
  structures := [
    { name := "TextDocumentIdentifier"
      bases := []
      members := [(false, .documentUri, "uri")]
      decode := [.member "uri" "uri"]
      encodeMembers := [.member "uri" "uri"] },
    { name := "VersionedTextDocumentIdentifier"
      bases := [.named "TextDocumentIdentifier"]
      members := [(false, .integer, "version")]
      decode := [.member "version" "version", .base "TextDocumentIdentifier"]
      encodeMembers := [.member "version" "version", .base "TextDocumentIdentifier"] }]

theorem resolve_identifierModel :
    resolve asciiTables identifierModel = .ok (.ok identifierProtocol) := by
  rfl

theorem generate_identifierProtocol :
    Templates.generate identifierProtocol = some identifierProgram := by
  rfl

theorem denotes_identifierModel {name : String} {t : MetaModel.Structure}
    (h : Denotes asciiTables identifierModel name t) :
    t = textDocumentIdentifier ∨ t = versionedIdentifier := by
  induction h with
  | declared hs => simpa [identifierModel] using hs
  | @literal s q ps hs hp hl =>
    have hnone : ∀ s ∈ identifierModel.structures, ∀ q ∈ s.properties, q.type.literals = [] := by
      decide
    rw [hnone s hs q hp] at hl
    cases hl
  | typeAlias ha _ _ _ => cases ha

theorem versionedIdentifier_extends :
    Extends asciiTables identifierModel versionedIdentifier textDocumentIdentifier :=
  ⟨textDocumentIdentifier.name, List.mem_cons_self .., .declared (by simp [identifierModel])⟩

theorem versionedIdentifier_covered :
    Covered asciiTables identifierModel versionedIdentifier := by
  have hown : HasKept asciiTables identifierModel versionedIdentifier "version" :=
    ⟨versionedIdentifier, .refl, .inr ⟨_, List.mem_cons_self .., rfl⟩⟩
  have hbase : HasKept asciiTables identifierModel versionedIdentifier "uri" :=
    ⟨textDocumentIdentifier, .single versionedIdentifier_extends,
      .inr ⟨_, List.mem_cons_self .., rfl⟩⟩
  intro t hst q hq
  have ht : t = textDocumentIdentifier ∨ t = versionedIdentifier := by
    rcases Relation.ReflTransGen.cases_tail hst with rfl | ⟨u, -, ⟨_, -, h⟩ | ⟨_, -, h⟩⟩
    · exact .inr rfl
    · exact denotes_identifierModel h
    · exact denotes_identifierModel h
  rcases ht with rfl | rfl
  · rw [List.mem_singleton.mp hq]
    exact hbase
  · rw [List.mem_singleton.mp hq]
    exact hown

theorem versionedIdentifier_verbatim :
    KeptVerbatim asciiTables identifierModel versionedIdentifier := by
  intro name hname
  have hall : ∀ name ∈ propertyNames identifierModel versionedIdentifier, Verbatim name := by
    decide
  exact hall name (mem_propertyNames_of_kept hname)

/-- The code for the identifier reads and writes its version and the URI of its base. -/
theorem generated_members_versioned : ∃ c ∈ identifierProgram.structures,
    c.name = "VersionedTextDocumentIdentifier" ∧
    (∀ name, identifierProgram.Reads c name ↔
      HasMember asciiTables identifierModel versionedIdentifier name) ∧
    ∀ name, identifierProgram.Writes c name ↔
      HasMember asciiTables identifierModel versionedIdentifier name := by
  obtain ⟨c, hc, hname, -, hmembers⟩ := generated_members_iff resolve_identifierModel
    generate_identifierProtocol (List.mem_cons_of_mem _ (List.mem_singleton_self _))
  exact ⟨c, hc, hname, hmembers.mpr ⟨versionedIdentifier_covered, versionedIdentifier_verbatim⟩⟩

end VersionedIdentifiers

section HoverOptions

def workDoneProgressOptions : MetaModel.Structure where
  name := "WorkDoneProgressOptions"
  properties := [⟨"workDoneProgress", true, .base "boolean"⟩]

def hoverOptions : MetaModel.Structure where
  name := "HoverOptions"
  mixins := [.reference "WorkDoneProgressOptions"]

/-- Two structures of the metamodel of the protocol, one of which mixes in the other. -/
def hoverModel : MetaModel where
  structures := [workDoneProgressOptions, hoverOptions]

def workDoneProgressProtocol : Protocol.Structure where
  name := "WorkDoneProgressOptions"
  properties := [⟨"workDoneProgress", "work_done_progress", true, .boolean⟩]
  nestedNames := ["WorkDoneProgressOptions"]

def hoverProtocol : Protocol where
  structures := [workDoneProgressProtocol,
    { name := "HoverOptions"
      mixins := [.reference "WorkDoneProgressOptions"]
      nestedNames := ["HoverOptions"] }]
  references := [("WorkDoneProgressOptions", some (.structure workDoneProgressProtocol))]

def hoverOptionsCode : CppStructure where
  name := "HoverOptions"
  bases := []
  members := []
  decode := []
  encodeMembers := []

def hoverProgram : CppProgram where
  aliases := []
  structures := [
    { name := "WorkDoneProgressOptions"
      bases := []
      members := [(true, .boolean, "work_done_progress")]
      decode := [.optionalMember "workDoneProgress" .boolean "work_done_progress"]
      encodeMembers := [.optionalMember "workDoneProgress" "work_done_progress"] },
    hoverOptionsCode]

theorem resolve_hoverModel : resolve asciiTables hoverModel = .ok (.ok hoverProtocol) := by
  rfl

theorem generate_hoverProtocol : Templates.generate hoverProtocol = some hoverProgram := by
  rfl

/-- The property that the hover options mix in is neither read nor written. -/
theorem mixed_in_property_dropped : resolve asciiTables hoverModel = .ok (.ok hoverProtocol) ∧
    Templates.generate hoverProtocol = some hoverProgram ∧ hoverOptions ∈ hoverModel.structures ∧
    hoverOptionsCode ∈ hoverProgram.structures ∧
    hoverOptionsCode.name = asciiTables.className hoverOptions.name ∧
    MetaModel.HasMember asciiTables hoverModel hoverOptions "workDoneProgress" ∧
    ¬ hoverProgram.Reads hoverOptionsCode "workDoneProgress" ∧
    ¬ hoverProgram.Writes hoverOptionsCode "workDoneProgress" := by
  refine ⟨resolve_hoverModel, generate_hoverProtocol, by simp [hoverModel],
    by simp [hoverProgram], by decide, ?_, ?_, ?_⟩
  · have hdenotes : MetaModel.Denotes asciiTables hoverModel
        (asciiTables.className workDoneProgressOptions.name) workDoneProgressOptions :=
      .declared (by simp [hoverModel])
    have hmixes : MetaModel.MixesIn asciiTables hoverModel hoverOptions workDoneProgressOptions :=
      ⟨workDoneProgressOptions.name, List.mem_cons_self .., hdenotes⟩
    exact ⟨workDoneProgressOptions, .single (.inr hmixes), _, List.mem_cons_self .., rfl⟩
  · intro h
    cases h with
    | own hname => cases hname
    | base hb _ _ => cases hb
  · intro h
    cases h with
    | own hname => cases hname
    | base hb _ _ => cases hb

end HoverOptions

end Resolver

end Langsvr
