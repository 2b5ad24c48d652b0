import Langsvr.SearchStops
import Langsvr.TypeReferences
import Mathlib.Logic.Relation

/-!
# The order of the sorted declarations

When the aliases and the structures are emitted after what they refer to. The loop over the
aliases lists an alias before what follows it, so it never helps. The search through the
structures lists a structure after the structures that it extends unless it came from one of
these, and after every structure that does not refer back to it.
-/

namespace Langsvr.Resolver

open Traversal (Ordered Follows Passes Reaches)

section Aliases

variable {aliases sorted : List Protocol.TypeAlias}

/-- The first alias that the loop takes of each name is the one that the name denotes. -/
theorem led_aliases {l : List Protocol.TypeAlias} (p : List Protocol.TypeAlias)
    (hl : aliases.reverse = p ++ l) : Traversal.Led (Denoted Protocol.TypeAlias.name aliases)
      Protocol.TypeAlias.name (p.map Protocol.TypeAlias.name).reverse l := by
  induction l generalizing p with
  | nil => trivial
  | cons a l ih =>
    constructor
    · by_cases hp : a.name ∈ p.map Protocol.TypeAlias.name
      · exact .inr (List.mem_reverse.mpr hp)
      · left
        have hnone : p.find? (fun e => e.name = a.name) = none := by
          apply List.find?_eq_none.mpr
          intro e he heq
          exact hp (List.mem_map.mpr ⟨e, he, by simpa using heq⟩)
        rw [Denoted, hl, List.find?_append, hnone]
        simp
    · have hrest := ih (p ++ [a]) (by rw [hl, List.append_assoc]; rfl)
      rw [List.map_append, List.reverse_append] at hrest
      exact hrest

/-- The sort of the aliases returns if and only if there is no null type in the alias that a name
denotes. -/
theorem sortTypeAliases_returns_iff : (∃ sorted, sortTypeAliases aliases = .ok sorted) ↔
    ∀ a, Denoted Protocol.TypeAlias.name aliases a → a.type.Complete := by
  have hnext : ∀ a ds, Denoted Protocol.TypeAlias.name aliases a →
      aliasDependencies aliases a = .ok ds →
        ∀ d ∈ ds, Denoted Protocol.TypeAlias.name aliases d := by
    intro a ds _ hds d hd
    have hcomplete : a.type.Complete := by
      rw [← aliasDependencies_ne_panic, hds]
      simp
    rw [aliasDependencies_complete hcomplete] at hds
    cases hds
    exact denoted_of_mem hd
  have hled := led_aliases (l := aliases.reverse) [] rfl
  constructor
  · intro h a ha
    obtain ⟨sorted, h⟩ := h
    obtain ⟨marks, hd, -⟩ := Except.bind_eq_ok.mp h
    have hdrains := Traversal.drains_of_drain hd
    obtain ⟨⟨l, hl⟩, hseen⟩ := hdrains.adds (P := fun _ => True) (fun _ _ _ _ _ _ => trivial)
      (fun _ _ => trivial)
    rcases (hl.seen a.name).mp (hseen a (List.mem_reverse.mpr ha.mem)) with hk | ⟨z, hz, hname⟩
    · cases hk
    · have hsorted : z ∈ marks.sorted := by
        rw [hl.sorted]
        exact List.mem_append_right _ hz
      rcases hdrains.listed hnext hled hsorted with hmem | ⟨hdenoted, ds, hds⟩
      · cases hmem
      · rw [← hdenoted.inj ha hname, ← aliasDependencies_ne_panic, hds]
        simp
  · intro h
    rw [Stop.exists_eq_ok (sortTypeAliases_fuel aliases)]
    refine Stop.bind_ne_panic.mpr ⟨?_, fun marks _ => by simp [pure, Except.pure]⟩
    exact Traversal.drain_ne_panic hnext (fun a ha => aliasDependencies_ne_panic.mpr (h a ha)) hled

/-- The type of an alias refers to an alias, at any depth. -/
def AliasRefersTo (aliases : List Protocol.TypeAlias) (a d : Protocol.TypeAlias) : Prop :=
  d ∈ aliases ∧ d.name ∈ a.type.references

theorem follows_aliases (hnodup : (aliases.map Protocol.TypeAlias.name).Nodup)
    {a d : Protocol.TypeAlias} (ha : a.type.Complete) :
    Follows (aliasDependencies aliases) a d ↔ AliasRefersTo aliases a d := by
  rw [AliasRefersTo, ← mem_denoted hnodup, Follows, aliasDependencies_complete ha]
  simp

/-- Of sorted aliases each stands after all that its type refers to if and only if it is declared
before all of them. -/
theorem sorted_aliases_iff (hnodup : (aliases.map Protocol.TypeAlias.name).Nodup)
    (h : sortTypeAliases aliases = .ok sorted) : Ordered (AliasRefersTo aliases) sorted ↔
    ∀ l₁ a l₂, aliases = l₁ ++ a :: l₂ → ∀ d, AliasRefersTo aliases a d → d ∈ l₂ := by
  have hcomplete : ∀ a ∈ aliases, a.type.Complete := fun a ha =>
    sortTypeAliases_returns_iff.mp ⟨sorted, h⟩ a ((denoted_iff hnodup).mpr ha)
  have hperm := sortTypeAliases_perm h hnodup
  rw [← Traversal.ordered_reverse]
  obtain ⟨marks, hd, h⟩ := Except.bind_eq_ok.mp h
  cases h
  have hiff := Traversal.drain_ordered_iff hd (by simpa using hnodup)
  have hsorted : ∀ l : List Protocol.TypeAlias, (∀ a ∈ l, a ∈ aliases) →
      (Ordered (Follows (aliasDependencies aliases)) l ↔
        Ordered (AliasRefersTo aliases) l) := fun l hl =>
    Ordered.congr fun a ha d => follows_aliases hnodup (hcomplete a (hl a ha))
  rw [hsorted _ fun a ha => hperm.mem_iff.mp ha,
    hsorted _ fun a ha => List.mem_reverse.mp ha] at hiff
  exact hiff

/-- The aliases are sorted so that each is emitted after all that its type refers to if and only
if there is no null type in them and each is declared before all that it refers to. -/
theorem sortTypeAliases_ordered_iff (hnodup : (aliases.map Protocol.TypeAlias.name).Nodup) :
    (∃ sorted, sortTypeAliases aliases = .ok sorted ∧ sorted.Perm aliases ∧
      ∀ l₁ a l₂, sorted = l₁ ++ a :: l₂ → ∀ d, AliasRefersTo aliases a d → d ∈ l₁) ↔
    (∀ a ∈ aliases, a.type.Complete) ∧
      ∀ l₁ a l₂, aliases = l₁ ++ a :: l₂ → ∀ d, AliasRefersTo aliases a d → d ∈ l₂ := by
  constructor
  · intro h
    obtain ⟨sorted, h, -, hordered⟩ := h
    refine ⟨fun a ha => ?_, (sorted_aliases_iff hnodup h).mp hordered⟩
    exact sortTypeAliases_returns_iff.mp ⟨sorted, h⟩ a ((denoted_iff hnodup).mpr ha)
  · intro h
    obtain ⟨hcomplete, hordered⟩ := h
    obtain ⟨sorted, h⟩ := sortTypeAliases_returns_iff.mpr fun a ha => hcomplete a ha.mem
    exact ⟨sorted, h, sortTypeAliases_perm h hnodup, (sorted_aliases_iff hnodup h).mpr hordered⟩

theorem not_transGen_self {α : Type} {R : α → α → Prop} {l : List α} (μ : α → ℕ)
    (hR : ∀ x ∈ l, ∀ y, R x y → y ∈ l ∧ μ y < μ x) {a : α} (ha : a ∈ l) :
    ¬ Relation.TransGen R a a := by
  intro h
  have hdown : ∀ b, Relation.TransGen R a b → b ∈ l ∧ μ b < μ a := by
    intro b hb
    induction hb with
    | single hab => exact hR _ ha _ hab
    | tail _ hbc ih =>
      obtain ⟨hc, hlt⟩ := hR _ ih.1 _ hbc
      exact ⟨hc, Nat.lt_trans hlt ih.2⟩
  exact Nat.lt_irrefl _ (hdown a h).2

def pattern : Protocol.TypeAlias := { name := "Pattern", type := .string }

def globPattern : Protocol.TypeAlias where
  name := "GlobPattern"
  type := .or [.reference "Pattern", .reference "RelativePattern"]

theorem sortTypeAliases_ordered_globPattern : ∃ sorted,
    sortTypeAliases [globPattern, pattern] = .ok sorted ∧ sorted.Perm [globPattern, pattern] ∧
      ∀ l₁ a l₂, sorted = l₁ ++ a :: l₂ →
        ∀ d, AliasRefersTo [globPattern, pattern] a d → d ∈ l₁ := by
  refine (sortTypeAliases_ordered_iff (by decide)).mpr ⟨fun a ha => ?_, fun l₁ a l₂ hl d hd => ?_⟩
  · simp only [List.mem_cons, List.not_mem_nil, or_false] at ha
    rcases ha with rfl | rfl
    · simp [globPattern, Protocol.TypeImpl.Complete, Protocol.TypeImpl.CompleteAll]
    · trivial
  · cases l₁ with
    | nil =>
      cases hl
      have hmem := hd.1
      simp only [List.mem_cons, List.not_mem_nil, or_false] at hmem
      rcases hmem with rfl | rfl
      · exact absurd hd.2 (by decide)
      · exact List.mem_singleton_self _
    | cons x l₁ =>
      rw [List.cons_append, List.cons.injEq] at hl
      obtain rfl := Traversal.split_singleton hl.2
      exact absurd hd.2 (by simp [pattern, Protocol.TypeImpl.references])

/-- An alias that is declared after the one it refers to is emitted before it. -/
theorem referring_alias_first : ([pattern, globPattern].map Protocol.TypeAlias.name).Nodup ∧
    (∀ a ∈ [pattern, globPattern],
      ¬ Relation.TransGen (AliasRefersTo [pattern, globPattern]) a a) ∧
    sortTypeAliases [pattern, globPattern] = .ok [globPattern, pattern] ∧
    AliasRefersTo [pattern, globPattern] globPattern pattern ∧
    ¬ ∀ l₁ a l₂, [globPattern, pattern] = l₁ ++ a :: l₂ →
      ∀ d, AliasRefersTo [pattern, globPattern] a d → d ∈ l₁ := by
  have hrefers : AliasRefersTo [pattern, globPattern] globPattern pattern :=
    ⟨List.mem_cons_self .., by decide⟩
  refine ⟨by decide, fun a ha => ?_, by rfl, hrefers, fun h => ?_⟩
  · refine not_transGen_self (fun a => a.type.size) (fun x hx y hxy => ⟨hxy.1, ?_⟩) ha
    obtain ⟨hy, hname⟩ := hxy
    simp only [List.mem_cons, List.not_mem_nil, or_false] at hx hy
    rcases hx with rfl | rfl
    · simp [pattern, Protocol.TypeImpl.references] at hname
    · rcases hy with rfl | rfl
      · decide
      · exact absurd hname (by decide)
  · have hmem := h [] globPattern [pattern] rfl pattern hrefers
    cases hmem

end Aliases

section Structures

variable {structures sorted : List Protocol.Structure}

/-- The names of the structures that follow a structure, in the order in which the search visits
them. -/
def following (structures : List Protocol.Structure) (s : Protocol.Structure) : List String :=
  s.references.filter fun n => n ∈ structures.map Protocol.Structure.name

def successors (structures : List Protocol.Structure) (name : String) : List String :=
  ((structures.reverse.find? fun s => s.name = name).map (following structures)).getD []

theorem successors_denoted {s : Protocol.Structure}
    (hs : Denoted Protocol.Structure.name structures s) :
    successors structures s.name = following structures s := by
  rw [successors, hs]
  rfl

theorem successors_eq (hnodup : (structures.map Protocol.Structure.name).Nodup)
    {s : Protocol.Structure} (hs : s ∈ structures) : successors structures s.name =
      s.references.filter fun n => n ∈ structures.map Protocol.Structure.name :=
  successors_denoted ((denoted_iff hnodup).mpr hs)

theorem following_eq_map {s : Protocol.Structure} {ds : List Protocol.Structure}
    (h : structureDependencies structures s = .ok ds) :
    following structures s = ds.map Protocol.Structure.name ∧
      ∀ d ∈ ds, Denoted Protocol.Structure.name structures d := by
  have hcomplete : s.Complete := by
    rw [← structureDependencies_ne_panic, h]
    simp
  rw [structureDependencies_complete hcomplete] at h
  cases h
  exact ⟨(map_name_denoted _).symm, fun d hd => denoted_of_mem hd⟩

def Entered (structures : List Protocol.Structure) : Protocol.Structure → Prop :=
  Traversal.Enters Protocol.Structure.name (successors structures) (following structures)
    (Denoted Protocol.Structure.name structures) ∅ structures

theorem Entered.mem {s : Protocol.Structure} (h : Entered structures s) : s ∈ structures :=
  h.mem_or.elim id Denoted.mem

/-- With distinct names the sort enters all structures. -/
theorem entered_iff (hnodup : (structures.map Protocol.Structure.name).Nodup)
    {s : Protocol.Structure} : Entered structures s ↔ s ∈ structures := by
  refine ⟨Entered.mem, fun hs => ?_⟩
  exact Traversal.enters_of_mem hs (fun x hx hkey => List.inj_on_of_nodup_map hnodup hx hs hkey)
    ((denoted_iff hnodup).mpr hs) (Set.notMem_empty _)

theorem seen_empty :
    {k | k ∈ ({} : Traversal.Marks Protocol.Structure String).seen} = ∅ := by
  ext k
  simp

/-- The sort of the structures returns if and only if there is no null type in the properties of
the structures that it enters. -/
theorem sortStructures_returns_iff : (∃ sorted, sortStructures structures = .ok sorted) ↔
    ∀ s, Entered structures s → s.Complete := by
  have hvisits := Traversal.visits_ne_panic_iff (fun x ys => following_eq_map)
    (fun x hx => successors_denoted hx) (fun x y hx hy => hx.inj hy)
    (fun s (hs : s ∈ structures) m => visitStructure_fuel hs m) {}
  rw [seen_empty] at hvisits
  rw [Stop.exists_eq_ok (sortStructures_fuel structures)]
  have hmarks : sortStructures structures ≠ .error .panic ↔
      structures.foldlM (fun marks s => Traversal.visit Protocol.Structure.name
        (structureDependencies structures) (structures.length + 1) s marks) {} ≠
          .error .panic := by
    refine Stop.bind_ne_panic.trans ⟨fun h => h.1, fun h => ⟨h, fun marks _ => ?_⟩⟩
    simp [pure, Except.pure]
  rw [hmarks, hvisits]
  exact forall_congr' fun s => imp_congr_right fun _ => structureDependencies_ne_panic

/-- The sort finds what the search through the names of the structures finds. -/
theorem sortStructures_explores (hnodup : (structures.map Protocol.Structure.name).Nodup)
    (h : sortStructures structures = .ok sorted) :
    Traversal.Explores (successors structures) ∅ (structures.map Protocol.Structure.name)
      (sorted.map Protocol.Structure.name) := by
  have hsucc : ∀ s ds, s ∈ structures → structureDependencies structures s = .ok ds →
      successors structures s.name = ds.map Protocol.Structure.name := by
    intro s ds hs hds
    rw [successors_eq hnodup hs]
    exact (following_eq_map hds).1
  obtain ⟨marks, hd, h⟩ := Except.bind_eq_ok.mp h
  cases h
  obtain ⟨l, hfinds⟩ := Traversal.foldlM_finds (fun s hs m m' hrun =>
    Traversal.visit_finds (P := (· ∈ structures))
      (fun x ys _ hys => structureDependencies_eq_ok hys) hsucc hs hrun) hd
  have hexplores := hfinds.explores
  have hl : marks.sorted.map Protocol.Structure.name = l := hfinds.sorted
  rw [seen_empty] at hexplores
  rw [hl]
  exact hexplores

/-- The structure `d` stands before `s` if and only if the search for `s` does not pass it. -/
theorem sortStructures_precedes_iff (hnodup : (structures.map Protocol.Structure.name).Nodup)
    (h : sortStructures structures = .ok sorted) {l₁ l₂ : List Protocol.Structure}
    {s d : Protocol.Structure} (hl : sorted = l₁ ++ s :: l₂) (hd : d ∈ structures)
    (href : d.name ∈ s.references) : d ∈ l₁ ↔
      ¬ Passes (successors structures) s.name ∅ (structures.map Protocol.Structure.name)
        d.name := by
  have hperm := sortStructures_perm h hnodup
  have hs : s ∈ structures := by
    apply hperm.mem_iff.mp
    rw [hl]
    exact List.mem_append_right _ (List.mem_cons_self ..)
  have hsucc : d.name ∈ successors structures s.name := by
    rw [successors_eq hnodup hs]
    exact List.mem_filter.mpr ⟨href, by simpa using List.mem_map_of_mem hd⟩
  have hnames : sorted.map Protocol.Structure.name =
      l₁.map Protocol.Structure.name ++ s.name :: l₂.map Protocol.Structure.name := by
    rw [hl, List.map_append, List.map_cons]
  rw [← (sortStructures_explores hnodup h).precedes_iff hnames hsucc]
  constructor
  · exact fun hmem => List.mem_map_of_mem hmem
  · intro hmem
    obtain ⟨e, he, hname⟩ := List.mem_map.mp hmem
    have he' : e ∈ structures := by
      apply hperm.mem_iff.mp
      rw [hl]
      exact List.mem_append_left _ he
    rw [← List.inj_on_of_nodup_map hnodup he' hd hname]
    exact he

/-- Of sorted structures each stands after all that it extends if and only if no search for a
structure passes one that it extends. -/
theorem sorted_bases_iff (hnodup : (structures.map Protocol.Structure.name).Nodup)
    (h : sortStructures structures = .ok sorted) :
    (∀ l₁ s l₂, sorted = l₁ ++ s :: l₂ →
      ∀ d ∈ structures, .reference d.name ∈ s.extendsTypes → d ∈ l₁) ↔
    ∀ s ∈ structures, ∀ d ∈ structures, .reference d.name ∈ s.extendsTypes →
      ¬ Passes (successors structures) s.name ∅ (structures.map Protocol.Structure.name)
        d.name := by
  have hperm := sortStructures_perm h hnodup
  have href : ∀ s d : Protocol.Structure, .reference d.name ∈ s.extendsTypes →
      d.name ∈ s.references := fun s d hd =>
    List.mem_append_left _ (List.mem_filterMap.mpr ⟨_, hd, rfl⟩)
  constructor
  · intro hbases s hs d hd hext
    obtain ⟨l₁, l₂, hl⟩ := List.append_of_mem (hperm.mem_iff.mpr hs)
    exact (sortStructures_precedes_iff hnodup h hl hd (href s d hext)).mp
      (hbases l₁ s l₂ hl d hd hext)
  · intro hpasses l₁ s l₂ hl d hd hext
    have hs : s ∈ structures := by
      apply hperm.mem_iff.mp
      rw [hl]
      exact List.mem_append_right _ (List.mem_cons_self ..)
    exact (sortStructures_precedes_iff hnodup h hl hd (href s d hext)).mpr
      (hpasses s hs d hd hext)

/-- The structures are sorted so that each is emitted after all that it extends if and only if
there is no null type in them and no search for a structure passes one that it extends. -/
theorem sortStructures_bases_iff (hnodup : (structures.map Protocol.Structure.name).Nodup) :
    (∃ sorted, sortStructures structures = .ok sorted ∧ sorted.Perm structures ∧
      ∀ l₁ s l₂, sorted = l₁ ++ s :: l₂ →
        ∀ d ∈ structures, .reference d.name ∈ s.extendsTypes → d ∈ l₁) ↔
    (∀ s ∈ structures, s.Complete) ∧
      ∀ s ∈ structures, ∀ d ∈ structures, .reference d.name ∈ s.extendsTypes →
        ¬ Passes (successors structures) s.name ∅ (structures.map Protocol.Structure.name)
          d.name := by
  constructor
  · intro h
    obtain ⟨sorted, h, -, hbases⟩ := h
    refine ⟨fun s hs => ?_, (sorted_bases_iff hnodup h).mp hbases⟩
    exact sortStructures_returns_iff.mp ⟨sorted, h⟩ s ((entered_iff hnodup).mpr hs)
  · intro h
    obtain ⟨hcomplete, hpasses⟩ := h
    obtain ⟨sorted, h⟩ := sortStructures_returns_iff.mpr fun s hs => hcomplete s hs.mem
    exact ⟨sorted, h, sortStructures_perm h hnodup, (sorted_bases_iff hnodup h).mpr hpasses⟩

def textEdit : Protocol.Structure where
  name := "TextEdit"
  properties := [⟨"newText", "new_text", false, .string⟩,
    ⟨"annotated", "annotated", false, .array (.reference "AnnotatedTextEdit")⟩]

def annotatedTextEdit : Protocol.Structure where
  name := "AnnotatedTextEdit"
  extendsTypes := [.reference "TextEdit"]

def createFile : Protocol.Structure where
  name := "CreateFile"
  extendsTypes := [.reference "ResourceOperation"]

def resourceOperation : Protocol.Structure where
  name := "ResourceOperation"
  properties := [⟨"annotationId", "annotation_id", true, .string⟩]

theorem sortStructures_bases_createFile : ∃ sorted,
    sortStructures [createFile, resourceOperation] = .ok sorted ∧
      sorted.Perm [createFile, resourceOperation] ∧ ∀ l₁ s l₂, sorted = l₁ ++ s :: l₂ →
        ∀ d ∈ [createFile, resourceOperation], .reference d.name ∈ s.extendsTypes → d ∈ l₁ := by
  refine (sortStructures_bases_iff (by decide)).mpr ⟨fun s hs => ?_, fun s hs d hd hext hp => ?_⟩
  · simp only [List.mem_cons, List.not_mem_nil, or_false] at hs
    rcases hs with rfl | rfl
    · simp [Protocol.Structure.Complete, createFile]
    · simp [Protocol.Structure.Complete, resourceOperation, Protocol.TypeImpl.Complete]
  · simp only [List.mem_cons, List.not_mem_nil, or_false] at hs hd
    rcases hs with rfl | rfl
    · rcases hd with rfl | rfl
      · simp [createFile] at hext
      · exact absurd ((Traversal.passes_cons_self (Set.notMem_empty _)).mp hp) (by decide)
    · simp [resourceOperation] at hext

/-- The first structure refers to one that extends it, which is emitted before it. -/
theorem derived_structure_first :
    ([textEdit, annotatedTextEdit].map Protocol.Structure.name).Nodup ∧
    (∀ s ∈ [textEdit, annotatedTextEdit], ¬ Relation.TransGen (fun s d =>
      d ∈ [textEdit, annotatedTextEdit] ∧ .reference d.name ∈ s.extendsTypes) s s) ∧
    sortStructures [textEdit, annotatedTextEdit] = .ok [annotatedTextEdit, textEdit] ∧
    ¬ ∀ l₁ s l₂, [annotatedTextEdit, textEdit] = l₁ ++ s :: l₂ →
      ∀ d ∈ [textEdit, annotatedTextEdit], .reference d.name ∈ s.extendsTypes → d ∈ l₁ := by
  refine ⟨by decide, fun s hs => ?_, by rfl, fun h => ?_⟩
  · refine not_transGen_self (fun s => s.extendsTypes.length)
      (fun x hx y hxy => ⟨hxy.1, ?_⟩) hs
    obtain ⟨hy, hname⟩ := hxy
    simp only [List.mem_cons, List.not_mem_nil, or_false] at hx hy
    rcases hx with rfl | rfl
    · simp [textEdit] at hname
    · rcases hy with rfl | rfl
      · decide
      · simp [annotatedTextEdit] at hname
  · have hmem := h [] annotatedTextEdit [textEdit] rfl textEdit (List.mem_cons_self ..)
      (List.mem_cons_self ..)
    cases hmem

def RefersTo (structures : List Protocol.Structure) (s d : Protocol.Structure) : Prop :=
  d ∈ structures ∧ d.name ∈ s.references

theorem refersTo_of_reaches (hnodup : (structures.map Protocol.Structure.name).Nodup)
    {a b : String} (h : Reaches (successors structures) ∅ a b) {x y : Protocol.Structure}
    (hx : x ∈ structures) (hxa : x.name = a) (hy : y ∈ structures) (hyb : y.name = b) :
    Relation.ReflTransGen (RefersTo structures) x y := by
  induction h generalizing x with
  | refl _ => rw [List.inj_on_of_nodup_map hnodup hx hy (hxa.trans hyb.symm)]
  | step _ hab _ ih =>
    subst hxa
    rw [successors_eq hnodup hx, List.mem_filter] at hab
    obtain ⟨z, hz, hzb⟩ := List.mem_map.mp (by simpa using hab.2)
    exact .head ⟨hz, hzb ▸ hab.1⟩ (ih hz hzb hyb)

/-- The sort returns unless there is a null type in a structure, and then every structure is
emitted after each one that it refers to and that does not refer back to it. -/
theorem sortStructures_topological (hnodup : (structures.map Protocol.Structure.name).Nodup) :
    ((∃ sorted, sortStructures structures = .ok sorted) ↔ ∀ s ∈ structures, s.Complete) ∧
    ∀ sorted, sortStructures structures = .ok sorted → sorted.Perm structures ∧
      ∀ l₁ s l₂, sorted = l₁ ++ s :: l₂ → ∀ d, RefersTo structures s d →
        ¬ Relation.ReflTransGen (RefersTo structures) d s → d ∈ l₁ := by
  refine ⟨?_, fun sorted h => ⟨sortStructures_perm h hnodup, fun l₁ s l₂ hl d hd hback => ?_⟩⟩
  · rw [sortStructures_returns_iff]
    exact forall_congr' fun s => by rw [entered_iff hnodup]
  · have hs : s ∈ structures := by
      apply (sortStructures_perm h hnodup).mem_iff.mp
      rw [hl]
      exact List.mem_append_right _ (List.mem_cons_self ..)
    apply (sortStructures_precedes_iff hnodup h hl hd.1 hd.2).mpr
    intro hp
    exact hback (refersTo_of_reaches hnodup hp.reaches hd.1 rfl hs rfl)

theorem sortStructures_topological_createFile :
    sortStructures [createFile, resourceOperation] = .ok [resourceOperation, createFile] ∧
    resourceOperation ∈ [resourceOperation] := by
  have hsort : sortStructures [createFile, resourceOperation] =
      .ok [resourceOperation, createFile] := by rfl
  have hrefers : RefersTo [createFile, resourceOperation] createFile resourceOperation :=
    ⟨List.mem_cons_of_mem _ (List.mem_cons_self ..), by decide⟩
  refine ⟨hsort, ((sortStructures_topological (by decide)).2 _ hsort).2 [resourceOperation] _ []
    rfl _ hrefers fun hback => ?_⟩
  rcases Relation.ReflTransGen.cases_head hback with heq | ⟨c, hc, -⟩
  · exact absurd (congrArg Protocol.Structure.name heq) (by decide)
  · have hname := hc.2
    simp [resourceOperation, Protocol.Structure.references, Protocol.TypeImpl.references] at hname

end Structures

section Permutations

/-- Both sorts return whatever the references are, and what they return is what they were given,
each declaration once. -/
theorem sorts_return_permutations :
    (∀ aliases : List Protocol.TypeAlias, (aliases.map Protocol.TypeAlias.name).Nodup →
      (∀ a ∈ aliases, a.type.Complete) → ∃ sorted, sortTypeAliases aliases = .ok sorted ∧
        sorted.Perm aliases ∧ sorted.Nodup) ∧
    ∀ structures : List Protocol.Structure, (structures.map Protocol.Structure.name).Nodup →
      (∀ s ∈ structures, s.Complete) → ∃ sorted, sortStructures structures = .ok sorted ∧
        sorted.Perm structures ∧ sorted.Nodup := by
  constructor
  · intro aliases hnodup hcomplete
    obtain ⟨sorted, h⟩ := sortTypeAliases_returns_iff.mpr fun a ha => hcomplete a ha.mem
    have hperm := sortTypeAliases_perm h hnodup
    exact ⟨sorted, h, hperm, hperm.nodup_iff.mpr (.of_map _ hnodup)⟩
  · intro structures hnodup hcomplete
    obtain ⟨sorted, h⟩ := sortStructures_returns_iff.mpr fun s hs => hcomplete s hs.mem
    have hperm := sortStructures_perm h hnodup
    exact ⟨sorted, h, hperm, hperm.nodup_iff.mpr (.of_map _ hnodup)⟩

def lspAny : Protocol.TypeAlias where
  name := "LSPAny"
  type := .or [.reference "LSPArray", .null]

def lspArray : Protocol.TypeAlias where
  name := "LSPArray"
  type := .array (.reference "LSPAny")

/-- Two aliases and two structures that refer to each other. -/
theorem sorts_return_permutations_textEdit :
    (∃ sorted, sortTypeAliases [lspAny, lspArray] = .ok sorted ∧
      sorted.Perm [lspAny, lspArray] ∧ sorted.Nodup) ∧
    ∃ sorted, sortStructures [textEdit, annotatedTextEdit] = .ok sorted ∧
      sorted.Perm [textEdit, annotatedTextEdit] ∧ sorted.Nodup := by
  constructor
  · refine sorts_return_permutations.1 [lspAny, lspArray] (by decide) fun a ha => ?_
    simp only [List.mem_cons, List.not_mem_nil, or_false] at ha
    rcases ha with rfl | rfl
    · simp [lspAny, Protocol.TypeImpl.Complete, Protocol.TypeImpl.CompleteAll]
    · simp [lspArray, Protocol.TypeImpl.Complete]
  · refine sorts_return_permutations.2 [textEdit, annotatedTextEdit] (by decide) fun s hs => ?_
    simp only [List.mem_cons, List.not_mem_nil, or_false] at hs
    rcases hs with rfl | rfl
    · simp [Protocol.Structure.Complete, textEdit, Protocol.TypeImpl.Complete]
    · simp [Protocol.Structure.Complete, annotatedTextEdit]

end Permutations

end Langsvr.Resolver
