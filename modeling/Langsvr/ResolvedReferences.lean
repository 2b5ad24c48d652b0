import Langsvr.UnsupportedModels

/-!
# Resolved references

What the references that the resolver creates refer to. A reference to a structure literal
refers to the structure that contains the literal, where it should refer to the structure that
is made of the literal. All other references of an accepted metamodel refer to what they name.
-/

namespace Langsvr

namespace MetaModel

namespace TypeImpl

mutual

/-- There is no type of a kind that is not supported in the type. A missing type is not an
error. -/
def Valid : TypeImpl → Prop
  | .integerLiteral _ | .booleanLiteral _ => False
  | .base name => Resolver.baseType name ≠ none
  | .array element => element.Valid
  | .map key value => key.Valid ∧ value.Valid
  | .and items | .or items | .tuple items => ValidAll items
  | .structureLiteral ps => ValidProperties ps
  | .nil | .reference _ | .stringLiteral _ => True

def ValidAll : List TypeImpl → Prop
  | [] => True
  | t :: ts => t.Valid ∧ ValidAll ts

def ValidProperties : List Property → Prop
  | [] => True
  | ⟨_, _, t⟩ :: ps => t.Valid ∧ ValidProperties ps

end

end TypeImpl

end MetaModel

namespace Protocol

/-- What a name denotes: a declaration of that name, or a structure in the one before `::`. -/
inductive Denotes (p : Protocol) : String → TypeDecl → Prop
  | typeAlias {a : TypeAlias} (ha : a ∈ p.typeAliases) : Denotes p a.name (.typeAlias a)
  | enumeration {e : Enumeration} (he : e ∈ p.enumerations) : Denotes p e.name (.enumeration e)
  | structure {s : Structure} (hs : s ∈ p.structures) : Denotes p s.name (.structure s)
  | nested {s n : Structure} (hs : s ∈ p.structures) (hn : n ∈ s.nestedStructures) :
    Denotes p (s.name ++ "::" ++ n.name) (.structure n)

end Protocol

namespace Resolver

variable (U : Unicode) {α β : Type}

mutual

/-- The names of the references that are created for a type, in their order. -/
def created (scope : Option LiteralScope) : MetaModel.TypeImpl → List String
  | .reference name => [U.className name]
  | .array element => created scope element
  | .map key value => created scope key ++ created scope value
  | .and items | .or items | .tuple items => createdAll scope items
  | .structureLiteral ps =>
    createdProperties scope ps ++ (scope.map (LiteralScope.literalName U)).toList
  | .nil | .base _ | .stringLiteral _ | .integerLiteral _ | .booleanLiteral _ => []

def createdAll (scope : Option LiteralScope) : List MetaModel.TypeImpl → List String
  | [] => []
  | t :: ts => created scope t ++ createdAll scope ts

def createdProperties (scope : Option LiteralScope) : List MetaModel.Property → List String
  | [] => []
  | ⟨_, _, t⟩ :: ps => created scope t ++ createdProperties scope ps

end

section Effects

variable {U}

/-- What a function adds to the references, and whether it finds an error. -/
structure Effect (st st' : State) (names : List String) (valid : Prop) : Prop where
  references : st'.allReferenceTypes = st.allReferenceTypes ++ names
  err : st'.err = none ↔ st.err = none ∧ valid

variable {st st' st'' : State} {names names' : List String} {P Q : Prop}

theorem Effect.refl : Effect st st [] True := ⟨(List.append_nil _).symm, by rw [and_true]⟩

theorem Effect.trans (h : Effect st st' names P) (h' : Effect st' st'' names' Q) :
    Effect st st'' (names ++ names') (P ∧ Q) where
  references := by rw [h'.references, h.references, List.append_assoc]
  err := by rw [h'.err, h.err, and_assoc]

theorem Effect.congr (h : Effect st st' names P) (hPQ : P ↔ Q) : Effect st st' names Q :=
  ⟨h.references, by rw [h.err, hPQ]⟩

theorem error_effect {message : String} {u : Unit} (h : error message st = .ok (u, st')) :
    Effect st st' [] False := by
  rw [modify_eq_ok.mp h]
  cases he : st.err with
  | none => exact ⟨by simp, by simp⟩
  | some text => exact ⟨by simp, by simp [he]⟩

theorem invalidType_effect {text : String} {t : Protocol.TypeImpl}
    (h : invalidType text st = .ok (t, st')) : Effect st st' [] False := by
  obtain ⟨u, st₁, h₁, h⟩ := bind_eq_ok.mp h
  rw [(pure_eq_ok.mp h).2]
  exact error_effect h₁

theorem newReferenceType_effect {name : String} {t : Protocol.TypeImpl}
    (h : newReferenceType name st = .ok (t, st')) : Effect st st' [name] True := by
  obtain ⟨u, st₁, h₁, h⟩ := bind_eq_ok.mp h
  rw [(pure_eq_ok.mp h).2, modify_eq_ok.mp h₁]
  exact ⟨rfl, by rw [and_true]⟩

theorem inScope_effect {message : String} {x : M α} {a : α}
    (hx : ∀ st₂, x { st with stack := message :: st.stack } = .ok (a, st₂) →
      Effect { st with stack := message :: st.stack } st₂ names P)
    (h : inScope message x st = .ok (a, st')) : Effect st st' names P := by
  obtain ⟨st₁, st₂, rfl, hrun, rfl⟩ := inScope_eq_ok h
  have heffect := hx st₂ hrun
  exact ⟨heffect.references, heffect.err⟩

mutual

theorem typeImpl_effect {t : MetaModel.TypeImpl} {out : Protocol.TypeImpl} {st st' : State}
    (h : typeImpl U t st = .ok (out, st')) :
    Effect st st' (created U st.newStructureLiteralType t) t.Valid := by
  cases t with
  | nil | stringLiteral value =>
    rw [typeImpl] at h
    rw [(pure_eq_ok.mp h).2, created, MetaModel.TypeImpl.Valid]
    exact Effect.refl
  | base name =>
    rw [typeImpl] at h
    rw [created, MetaModel.TypeImpl.Valid]
    cases hb : baseType name with
    | some t =>
      rw [hb] at h
      rw [(pure_eq_ok.mp h).2]
      exact Effect.refl.congr (by simp)
    | none =>
      rw [hb] at h
      exact (invalidType_effect h).congr (by simp)
  | integerLiteral value | booleanLiteral value =>
    rw [typeImpl] at h
    rw [created, MetaModel.TypeImpl.Valid]
    exact invalidType_effect h
  | reference name =>
    rw [typeImpl] at h
    rw [created, MetaModel.TypeImpl.Valid]
    exact newReferenceType_effect h
  | array element =>
    rw [typeImpl] at h
    obtain ⟨e, st₁, he, h⟩ := bind_eq_ok.mp h
    rw [(pure_eq_ok.mp h).2, created, MetaModel.TypeImpl.Valid]
    exact typeImpl_effect he
  | and items | or items | tuple items =>
    rw [typeImpl] at h
    obtain ⟨is, st₁, hi, h⟩ := bind_eq_ok.mp h
    rw [(pure_eq_ok.mp h).2, created, MetaModel.TypeImpl.Valid]
    exact typeImpls_effect hi
  | map key value =>
    rw [typeImpl] at h
    obtain ⟨k, st₁, hk, h⟩ := bind_eq_ok.mp h
    obtain ⟨v, st₂, hv, h⟩ := bind_eq_ok.mp h
    have hvalue := typeImpl_effect hv
    rw [(typeImpl_eq_ok hk).2.scope] at hvalue
    rw [(pure_eq_ok.mp h).2, created, MetaModel.TypeImpl.Valid]
    exact (typeImpl_effect hk).trans hvalue
  | structureLiteral ps =>
    rw [typeImpl] at h
    obtain ⟨st₀, st₁, hget, hrun⟩ := bind_eq_ok.mp h
    obtain ⟨h₀, h₁⟩ := get_eq_ok.mp hget
    subst h₀ h₁
    rw [created, MetaModel.TypeImpl.Valid]
    cases hs : st₁.newStructureLiteralType with
    | none =>
      simp only [hs] at hrun
      cases hrun
    | some scope =>
      simp only [hs] at hrun
      obtain ⟨properties, st₂, hp, hrun⟩ := bind_eq_ok.mp hrun
      obtain ⟨u, st₃, hm, hrun⟩ := bind_eq_ok.mp hrun
      have hproperties := propertyImpls_effect hp
      have hname := newReferenceType_effect hrun
      rw [modify_eq_ok.mp hm] at hname
      rw [hs] at hproperties
      have hnested : Effect st₂ st' [scope.literalName U] True := ⟨hname.references, hname.err⟩
      exact (hproperties.trans hnested).congr (by rw [and_true])

theorem typeImpls_effect {ts : List MetaModel.TypeImpl} {out : List Protocol.TypeImpl}
    {st st' : State} (h : typeImpls U ts st = .ok (out, st')) :
    Effect st st' (createdAll U st.newStructureLiteralType ts)
      (MetaModel.TypeImpl.ValidAll ts) := by
  cases ts with
  | nil =>
    rw [typeImpls] at h
    rw [(pure_eq_ok.mp h).2, createdAll, MetaModel.TypeImpl.ValidAll]
    exact Effect.refl
  | cons t ts =>
    rw [typeImpls] at h
    obtain ⟨t', st₁, ht, h⟩ := bind_eq_ok.mp h
    obtain ⟨ts', st₂, hts, h⟩ := bind_eq_ok.mp h
    have hrest := typeImpls_effect hts
    rw [(typeImpl_eq_ok ht).2.scope] at hrest
    rw [(pure_eq_ok.mp h).2, createdAll, MetaModel.TypeImpl.ValidAll]
    exact (typeImpl_effect ht).trans hrest

theorem propertyImpl_effect {p : MetaModel.Property} {out : Protocol.Property} {st st' : State}
    (h : propertyImpl U p st = .ok (out, st')) :
    Effect st st' (created U st.newStructureLiteralType p.type) p.type.Valid := by
  obtain ⟨name, optional, type⟩ := p
  rw [propertyImpl] at h
  refine inScope_effect (fun st₂ hx => ?_) h
  obtain ⟨t, st₃, ht, hx⟩ := bind_eq_ok.mp hx
  rw [(pure_eq_ok.mp hx).2]
  exact typeImpl_effect ht

theorem propertyImpls_effect {ps : List MetaModel.Property} {out : List Protocol.Property}
    {st st' : State} (h : propertyImpls U ps st = .ok (out, st')) :
    Effect st st' (createdProperties U st.newStructureLiteralType ps)
      (MetaModel.TypeImpl.ValidProperties ps) := by
  cases ps with
  | nil =>
    rw [propertyImpls] at h
    rw [(pure_eq_ok.mp h).2, createdProperties, MetaModel.TypeImpl.ValidProperties]
    exact Effect.refl
  | cons p ps =>
    rw [propertyImpls] at h
    obtain ⟨p', st₁, hp, h⟩ := bind_eq_ok.mp h
    obtain ⟨ps', st₂, hps, h⟩ := bind_eq_ok.mp h
    have hrest := propertyImpls_effect hps
    rw [(propertyImpl_eq_ok hp).2.scope] at hrest
    rw [(pure_eq_ok.mp h).2, createdProperties, MetaModel.TypeImpl.ValidProperties]
    exact (propertyImpl_effect hp).trans hrest

end

end Effects

section Declarations

variable {st st' : State} {U}

def structureNames (U : Unicode) (s : MetaModel.Structure) : List String :=
  createdAll U none s.extendsTypes ++ (createdAll U none s.mixins ++
    s.properties.flatMap fun p => created U (some (propertyScope U s p)) p.type)

def notificationNames (U : Unicode) (n : MetaModel.Notification) : List String :=
  createdAll U none n.params ++ created U none n.registrationOptions

def requestNames (U : Unicode) (r : MetaModel.Request) : List String :=
  created U none r.errorData ++ (createdAll U none r.params ++ (created U none r.partialResult ++
    (created U none r.registrationOptions ++ created U none r.result)))

theorem transform_effect {f : α → M β} {names : α → List String} {C : α → Prop}
    (hf : ∀ x st y st', st.newStructureLiteralType = none → f x st = .ok (y, st') →
      Effect st st' (names x) (C x))
    (hkeep : ∀ x st y st', st.newStructureLiteralType = none → f x st = .ok (y, st') →
      st'.newStructureLiteralType = none) {xs : List α} {ys : List β}
    (hst : st.newStructureLiteralType = none) (h : transform f xs st = .ok (ys, st')) :
    Effect st st' (xs.flatMap names) (∀ x ∈ xs, C x) := by
  induction xs generalizing ys st with
  | nil =>
    rw [(pure_eq_ok.mp h).2]
    exact Effect.refl.congr (by simp)
  | cons x xs ih =>
    obtain ⟨y, st₁, hy, h⟩ := bind_eq_ok.mp h
    obtain ⟨ys', st₂, hys, h⟩ := bind_eq_ok.mp h
    obtain ⟨-, rfl⟩ := pure_eq_ok.mp h
    rw [List.flatMap_cons, List.forall_mem_cons]
    exact (hf x st y st₁ hst hy).trans (ih (hkeep x st y st₁ hst hy) hys)

theorem typeImpl_none {t : MetaModel.TypeImpl} {out : Protocol.TypeImpl}
    (h : typeImpl U t st = .ok (out, st')) (hst : st.newStructureLiteralType = none) :
    Effect st st' (created U none t) t.Valid := by
  rw [← hst]
  exact typeImpl_effect h

theorem typeImpls_none {ts : List MetaModel.TypeImpl} {out : List Protocol.TypeImpl}
    (h : typeImpls U ts st = .ok (out, st')) (hst : st.newStructureLiteralType = none) :
    Effect st st' (createdAll U none ts) (MetaModel.TypeImpl.ValidAll ts) := by
  rw [← hst]
  exact typeImpls_effect h

theorem messageDirection_effect {direction : String} {out : Protocol.MessageDirection}
    (h : messageDirection direction st = .ok (out, st')) :
    Effect st st' [] (translateDirection direction ≠ .invalid) := by
  obtain ⟨rfl, ⟨hvalid, rfl⟩ | ⟨hinvalid, message, u, he⟩⟩ := messageDirection_cases h
  · exact Effect.refl.congr (by simp [hvalid])
  · exact (error_effect he).congr (by simp [hinvalid])

theorem enumerationEntry_effect {v : MetaModel.EnumerationEntry} {out : Protocol.EnumerationEntry}
    (h : enumerationEntry U v st = .ok (out, st')) : Effect st st' [] True := by
  refine inScope_effect (fun st₂ hx => ?_) h
  rw [(pure_eq_ok.mp hx).2]
  exact Effect.refl

theorem enumeration_effect {e : MetaModel.Enumeration} {out : Protocol.Enumeration}
    (hst : st.newStructureLiteralType = none) (h : enumeration U e st = .ok (out, st')) :
    Effect st st' (created U none e.type) e.type.Valid := by
  refine inScope_effect (fun st₂ hx => ?_) h
  obtain ⟨t, st₃, ht, hx⟩ := bind_eq_ok.mp hx
  obtain ⟨vs, st₄, hvs, hx⟩ := bind_eq_ok.mp hx
  have hentries := transform_effect (fun v st y st' _ hy => enumerationEntry_effect hy)
    (fun v st y st' hst hy => (enumerationEntry_eq_ok hy).2.scope.trans hst)
    ((typeImpl_eq_ok ht).2.scope.trans hst) hvs
  rw [(pure_eq_ok.mp hx).2]
  have hnone : e.values.flatMap (fun _ => ([] : List String)) = [] := by simp
  have hall := (typeImpl_none ht hst).trans hentries
  rw [hnone, List.append_nil] at hall
  exact hall.congr (by simp)

theorem notification_effect {n : MetaModel.Notification} {out : Protocol.Notification}
    (hst : st.newStructureLiteralType = none) (h : notification U n st = .ok (out, st')) :
    Effect st st' (notificationNames U n) (translateDirection n.messageDirection ≠ .invalid ∧
      MetaModel.TypeImpl.ValidAll n.params ∧ n.registrationOptions.Valid) := by
  refine inScope_effect (fun st₂ hx => ?_) h
  obtain ⟨d, st₃, hd, hx⟩ := bind_eq_ok.mp hx
  obtain ⟨ps, st₄, hps, hx⟩ := bind_eq_ok.mp hx
  obtain ⟨o, st₅, ho, hx⟩ := bind_eq_ok.mp hx
  have h₃ := (messageDirection_eq_ok hd).2.scope.trans hst
  have h₄ := (typeImpls_eq_ok hps).2.scope.trans h₃
  rw [(pure_eq_ok.mp hx).2]
  exact (messageDirection_effect hd).trans ((typeImpls_none hps h₃).trans (typeImpl_none ho h₄))

theorem request_effect {r : MetaModel.Request} {out : Protocol.Request}
    (hst : st.newStructureLiteralType = none) (h : request U r st = .ok (out, st')) :
    Effect st st' (requestNames U r) (r.errorData.Valid ∧
      translateDirection r.messageDirection ≠ .invalid ∧ MetaModel.TypeImpl.ValidAll r.params ∧
      r.partialResult.Valid ∧ r.registrationOptions.Valid ∧ r.result.Valid) := by
  refine inScope_effect (fun st₂ hx => ?_) h
  obtain ⟨e, st₃, he, hx⟩ := bind_eq_ok.mp hx
  obtain ⟨d, st₄, hd, hx⟩ := bind_eq_ok.mp hx
  obtain ⟨ps, st₅, hps, hx⟩ := bind_eq_ok.mp hx
  obtain ⟨pr, st₆, hpr, hx⟩ := bind_eq_ok.mp hx
  obtain ⟨o, st₇, ho, hx⟩ := bind_eq_ok.mp hx
  obtain ⟨res, st₈, hres, hx⟩ := bind_eq_ok.mp hx
  have h₃ := (typeImpl_eq_ok he).2.scope.trans hst
  have h₄ := (messageDirection_eq_ok hd).2.scope.trans h₃
  have h₅ := (typeImpls_eq_ok hps).2.scope.trans h₄
  have h₆ := (typeImpl_eq_ok hpr).2.scope.trans h₅
  have h₇ := (typeImpl_eq_ok ho).2.scope.trans h₆
  rw [(pure_eq_ok.mp hx).2]
  exact (typeImpl_none he hst).trans ((messageDirection_effect hd).trans
    ((typeImpls_none hps h₄).trans ((typeImpl_none hpr h₅).trans
      ((typeImpl_none ho h₆).trans (typeImpl_none hres h₇)))))

theorem structureProperties_effect {name : String} {ps : List MetaModel.Property}
    {out out' : String × List Protocol.Property}
    (h : structureProperties U name out ps st = .ok (out', st')) :
    Effect st st' (ps.flatMap fun p => created U (some ⟨name, p.name⟩) p.type)
      (∀ p ∈ ps, p.type.Valid) := by
  induction ps generalizing out st with
  | nil =>
    rw [(pure_eq_ok.mp h).2]
    exact Effect.refl.congr (by simp)
  | cons p ps ih =>
    obtain ⟨out₁, st₁, hp, hrun⟩ := bind_eq_ok.mp h
    obtain ⟨property, hproperty, -⟩ := structureProperty_cases hp
    have heffect := propertyImpl_effect hproperty
    have hfirst : Effect st st₁ (created U (some ⟨name, p.name⟩) p.type) p.type.Valid :=
      ⟨heffect.references, heffect.err⟩
    rw [List.flatMap_cons, List.forall_mem_cons]
    exact hfirst.trans (ih hrun)

theorem structureImpl_effect {s : MetaModel.Structure} {out : Protocol.Structure}
    (hst : st.newStructureLiteralType = none) (h : structureImpl U s st = .ok (out, st')) :
    Effect st st' (structureNames U s) (MetaModel.TypeImpl.ValidAll s.extendsTypes ∧
      MetaModel.TypeImpl.ValidAll s.mixins ∧ ∀ p ∈ s.properties, p.type.Valid) := by
  refine inScope_effect (fun st₂ hx => ?_) h
  obtain ⟨extendsTypes, st₃, he, hx⟩ := bind_eq_ok.mp hx
  obtain ⟨mixins, st₄, hm, hx⟩ := bind_eq_ok.mp hx
  obtain ⟨old, st₅, hget, hx⟩ := bind_eq_ok.mp hx
  obtain ⟨u, st₆, hclear, hx⟩ := bind_eq_ok.mp hx
  obtain ⟨out', st₇, hp, hx⟩ := bind_eq_ok.mp hx
  obtain ⟨last, st₈, hget', hx⟩ := bind_eq_ok.mp hx
  obtain ⟨v, st₉, hback, hx⟩ := bind_eq_ok.mp hx
  have h₃ := (typeImpls_eq_ok he).2.scope.trans hst
  have hproperties := structureProperties_effect hp
  rw [modify_eq_ok.mp hclear, (get_eq_ok.mp hget).2] at hproperties
  rw [(pure_eq_ok.mp hx).2, modify_eq_ok.mp hback, (get_eq_ok.mp hget').2]
  exact (typeImpls_none he hst).trans ((typeImpls_none hm h₃).trans
    ⟨hproperties.references, hproperties.err⟩)

theorem typeAlias_effect {a : MetaModel.TypeAlias} {out : Protocol.TypeAlias}
    (hst : st.newStructureLiteralType = none) (h : typeAlias U a st = .ok (out, st')) :
    Effect st st' (created U none a.type) a.type.Valid := by
  refine inScope_effect (fun st₂ hx => ?_) h
  obtain ⟨t, st₃, ht, hx⟩ := bind_eq_ok.mp hx
  rw [(pure_eq_ok.mp hx).2]
  exact typeImpl_none ht hst

end Declarations

section Registration

variable {U} {st st' : State} {typeDecls ds out : List (String × Protocol.TypeDecl)}

/-- The registration finds an error if and only if two declarations have the same name. -/
theorem registerAll_effect (hnodup : (typeDecls.map Prod.fst).Nodup)
    (h : registerAll typeDecls ds st = .ok (out, st')) :
    Effect st st' [] ((typeDecls ++ ds).map Prod.fst).Nodup := by
  induction ds generalizing typeDecls st with
  | nil =>
    rw [(pure_eq_ok.mp h).2, List.append_nil]
    exact Effect.refl.congr (by simp [hnodup])
  | cons d ds ih =>
    obtain ⟨decls, st₁, hd, hrun⟩ := bind_eq_ok.mp h
    obtain ⟨hmem, rfl, message, u, he⟩ | ⟨hfresh, rfl, rfl⟩ := register_cases hd
    · have hdup : ¬ ((decls ++ d :: ds).map Prod.fst).Nodup := by
        intro hall
        rw [List.map_append, List.map_cons, List.nodup_append] at hall
        exact hall.2.2 d.1 hmem d.1 (List.mem_cons_self ..) rfl
      exact ((error_effect he).trans (ih hnodup hrun)).congr (by simp only [hdup, false_and])
    · have hrest := ih (nodup_names_snoc hnodup hfresh) hrun
      rwa [List.append_assoc, List.singleton_append] at hrest

/-- Each reference refers to the declaration of its name, and there is an error if and only if
one of them has none. -/
theorem resolveReferences_eq_ok {names : List String}
    {refs : List (String × Option Protocol.TypeDecl)}
    (h : transform (resolveReference typeDecls) names st = .ok (refs, st')) :
    refs = names.map (fun name => (name, lookup name typeDecls)) ∧
      Effect st st' [] (∀ name ∈ names, name ∈ typeDecls.map Prod.fst) := by
  induction names generalizing refs st with
  | nil =>
    obtain ⟨rfl, rfl⟩ := pure_eq_ok.mp h
    exact ⟨rfl, Effect.refl.congr (by simp)⟩
  | cons name names ih =>
    obtain ⟨ref, st₁, hr, h⟩ := bind_eq_ok.mp h
    obtain ⟨refs', st₂, hrs, h⟩ := bind_eq_ok.mp h
    obtain ⟨rfl, rfl⟩ := pure_eq_ok.mp h
    obtain ⟨rfl, hrest⟩ := ih hrs
    rw [List.map_cons, List.forall_mem_cons]
    obtain ⟨rfl, ⟨hmem, rfl⟩ | ⟨hmissing, message, u, he⟩⟩ := resolveReference_cases hr
    · exact ⟨rfl, hrest.congr (by simp only [hmem, true_and])⟩
    · exact ⟨rfl, ((error_effect he).trans hrest).congr (by simp only [hmissing, false_and])⟩

theorem resolveTypes_effect {p : Protocol} {refs : List (String × Option Protocol.TypeDecl)}
    (h : resolveTypes p st = .ok (refs, st')) :
    (st'.err = none ↔ st.err = none ∧ ((declarations p).map Prod.fst).Nodup ∧
      ∀ name ∈ st.allReferenceTypes, name ∈ (declarations p).map Prod.fst) ∧
    (st'.err = none → refs = st.allReferenceTypes.map fun name =>
      (name, lookup name (declarations p))) := by
  obtain ⟨typeDecls, st₁, hd, h⟩ := bind_eq_ok.mp h
  obtain ⟨now, st₂, hget, h⟩ := bind_eq_ok.mp h
  obtain ⟨rfl, rfl⟩ := get_eq_ok.mp hget
  have hregister := registerAll_effect (by simp) hd
  obtain ⟨hrefs, heffect⟩ := resolveReferences_eq_ok h
  have hnames := hregister.references
  rw [List.append_nil] at hnames
  have hdecls : st₂.err = none → typeDecls = declarations p := fun hnone => by
    have hall := (registerAll_eq_ok hd).2 hnone List.nodup_nil
    exact hall.1
  constructor
  · rw [heffect.err, hregister.err, and_assoc, hnames]
    refine and_congr_right fun herr => and_congr_right fun hnodup => ?_
    rw [hdecls (hregister.err.mpr ⟨herr, hnodup⟩)]
  · intro hnone
    rw [hrefs, hnames, hdecls (heffect.err.mp hnone).1]

end Registration

section Models

/-- There are no types of unsupported kinds and no unknown directions in the metamodel. -/
structure Valid (m : MetaModel) : Prop where
  enumerations : ∀ e ∈ m.enumerations, e.type.Valid
  notifications : ∀ n ∈ m.notifications, translateDirection n.messageDirection ≠ .invalid ∧
    MetaModel.TypeImpl.ValidAll n.params ∧ n.registrationOptions.Valid
  requests : ∀ r ∈ m.requests, r.errorData.Valid ∧
    translateDirection r.messageDirection ≠ .invalid ∧ MetaModel.TypeImpl.ValidAll r.params ∧
    r.partialResult.Valid ∧ r.registrationOptions.Valid ∧ r.result.Valid
  structures : ∀ s ∈ m.structures, MetaModel.TypeImpl.ValidAll s.extendsTypes ∧
    MetaModel.TypeImpl.ValidAll s.mixins ∧ ∀ p ∈ s.properties, p.type.Valid
  typeAliases : ∀ a ∈ m.typeAliases, a.type.Valid

def createdNames (m : MetaModel) : List String :=
  m.enumerations.flatMap (fun e => created U none e.type) ++
    (m.notifications.flatMap (notificationNames U) ++ (m.requests.flatMap (requestNames U) ++
      (m.structures.flatMap (structureNames U) ++
        m.typeAliases.flatMap fun a => created U none a.type)))

/-- The declarations in the order of the metamodel. -/
def unsorted (m : MetaModel) : Protocol where
  enumerations := m.enumerations.map (translateEnumeration U)
  structures := m.structures.map (translateStructure U)
  typeAliases := m.typeAliases.map (translateAlias U)

def declaredNames (m : MetaModel) : List String := (declarations (unsorted U m)).map Prod.fst

/-- The declarations have different names, and every reference has the name of one. -/
structure Resolvable (m : MetaModel) : Prop where
  nodup : (declaredNames U m).Nodup
  declared : ∀ name ∈ createdNames U m, name ∈ declaredNames U m

variable {U} {m : MetaModel} {p : Protocol} {st : State}

/-- The work ends without an error if and only if the metamodel is valid and its references can
be resolved. -/
theorem model_effect (h : model U m {} = .ok (p, st)) :
    (st.err = none ↔ Valid m ∧ Resolvable U m) ∧ (st.err = none →
      p.references = (createdNames U m).map fun name =>
        (name, lookup name (declarations (unsorted U m)))) := by
  obtain ⟨st₁, st₂, st₃, st₄, st₅, st₆, he, hn, hr, hs, ha, hrefs, -, hst, hes, -⟩ := model_eq_ok h
  have h₁ := (transform_eq_map (fun e st y st' hst hy => enumeration_eq_ok hst hy) rfl he).2.scope
  have h₂ := (transform_eq_map
    (fun n st y st' hst hy => notification_eq_ok hst hy) h₁ hn).2.scope.trans h₁
  have h₃ := (transform_eq_map
    (fun r st y st' hst hy => request_eq_ok hst hy) h₂ hr).2.scope.trans h₂
  have h₄ := (transform_eq_map
    (fun s st y st' hst hy => structureImpl_eq_ok hst hy) h₃ hs).2.scope.trans h₃
  have hpasses := (transform_effect (fun e st y st' hst hy => enumeration_effect hst hy)
    (fun e st y st' hst hy => (enumeration_eq_ok hst hy).2.scope.trans hst) rfl he).trans
    ((transform_effect (fun n st y st' hst hy => notification_effect hst hy)
      (fun n st y st' hst hy => (notification_eq_ok hst hy).2.scope.trans hst) h₁ hn).trans
    ((transform_effect (fun r st y st' hst hy => request_effect hst hy)
      (fun r st y st' hst hy => (request_eq_ok hst hy).2.scope.trans hst) h₂ hr).trans
    ((transform_effect (fun s st y st' hst hy => structureImpl_effect hst hy)
      (fun s st y st' hst hy => (structureImpl_eq_ok hst hy).2.scope.trans hst) h₃ hs).trans
    (transform_effect (fun a st y st' hst hy => typeAlias_effect hst hy)
      (fun a st y st' hst hy => (typeAlias_eq_ok hst hy).2.scope.trans hst) h₄ ha))))
  have hnames : st₅.allReferenceTypes = createdNames U m := hpasses.references
  have hunsorted : ({
      enumerations := p.enumerations
      structures := m.structures.map (translateStructure U)
      typeAliases := m.typeAliases.map (translateAlias U) } : Protocol) = unsorted U m := by
    rw [hes]
    rfl
  rw [hunsorted] at hrefs
  obtain ⟨herr, hall⟩ := resolveTypes_effect hrefs
  rw [hnames] at herr hall
  rw [hst]
  refine ⟨?_, hall⟩
  rw [herr, hpasses.err]
  constructor
  · intro h
    obtain ⟨⟨-, hes, hns, hrs, hss, has⟩, hnodup, hdeclared⟩ := h
    exact ⟨⟨hes, hns, hrs, hss, has⟩, hnodup, hdeclared⟩
  · intro h
    obtain ⟨hvalid, hnodup, hdeclared⟩ := h
    exact ⟨⟨rfl, hvalid.enumerations, hvalid.notifications, hvalid.requests, hvalid.structures,
      hvalid.typeAliases⟩, hnodup, hdeclared⟩

theorem resolve_accepts_iff : (∃ p, resolve U m = .ok (.ok p)) ↔
    Handled U m ∧ Valid m ∧ Resolvable U m := by
  constructor
  · intro h
    obtain ⟨p, h⟩ := h
    obtain ⟨st, hrun, herr⟩ := resolve_eq_ok h
    exact ⟨model_returns_iff.mp ⟨_, hrun⟩, (model_effect hrun).1.mp herr⟩
  · intro h
    obtain ⟨⟨p, st⟩, hrun⟩ := model_returns_iff.mpr h.1
    refine ⟨p, ?_⟩
    unfold resolve
    rw [hrun]
    simp only [(model_effect hrun).1.mpr h.2]

/-- What is returned for a metamodel with references that cannot be resolved is an error. -/
theorem resolve_rejects (hhandled : Handled U m) (h : ¬ Resolvable U m) :
    ∃ message, resolve U m = .ok (.error message) := by
  obtain ⟨⟨p, st⟩, hrun⟩ := model_returns_iff.mpr hhandled
  unfold resolve
  rw [hrun]
  cases herr : st.err with
  | some message => exact ⟨message, by simp only [herr]⟩
  | none => exact absurd ((model_effect hrun).1.mp herr).2 h

end Models

section Denotations

variable {U} {m : MetaModel} {p q : Protocol} {name : String} {d d' : Protocol.TypeDecl}

def denotations (p : Protocol) : List (String × Protocol.TypeDecl) :=
  p.typeAliases.map (fun a => (a.name, .typeAlias a)) ++
    p.enumerations.map (fun e => (e.name, .enumeration e)) ++
    p.structures.flatMap fun s => (s.name, .structure s) ::
      s.nestedStructures.map fun n => (s.name ++ "::" ++ n.name, .structure n)

theorem mem_denotations : (name, d) ∈ denotations p ↔ p.Denotes name d := by
  simp only [denotations, List.mem_append, List.mem_map, List.mem_flatMap, List.mem_cons,
    Prod.mk.injEq]
  constructor
  · rintro ((⟨a, ha, rfl, rfl⟩ | ⟨e, he, rfl, rfl⟩) | ⟨s, hs, ⟨rfl, rfl⟩ | ⟨n, hn, rfl, rfl⟩⟩)
    · exact .typeAlias ha
    · exact .enumeration he
    · exact .structure hs
    · exact .nested hs hn
  · intro h
    rcases h with ha | he | hs | ⟨hs, hn⟩
    · exact .inl (.inl ⟨_, ha, rfl, rfl⟩)
    · exact .inl (.inr ⟨_, he, rfl, rfl⟩)
    · exact .inr ⟨_, hs, .inl ⟨rfl, rfl⟩⟩
    · exact .inr ⟨_, hs, .inr ⟨_, hn, rfl, rfl⟩⟩

theorem map_fst_denotations (p : Protocol) :
    (denotations p).map Prod.fst = (declarations p).map Prod.fst := by
  simp only [denotations, declarations, List.map_append, List.map_map, List.map_flatMap,
    List.map_cons, Function.comp_def]

theorem denotes_unique (hnodup : ((declarations p).map Prod.fst).Nodup) (h : p.Denotes name d)
    (h' : p.Denotes name d') : d' = d := by
  rw [← map_fst_denotations] at hnodup
  have heq := List.inj_on_of_nodup_map hnodup (mem_denotations.mpr h') (mem_denotations.mpr h) rfl
  exact congrArg Prod.snd heq

theorem denotes_mono (ha : ∀ a ∈ p.typeAliases, a ∈ q.typeAliases)
    (he : ∀ e ∈ p.enumerations, e ∈ q.enumerations) (hs : ∀ s ∈ p.structures, s ∈ q.structures)
    (h : p.Denotes name d) : q.Denotes name d := by
  rcases h with hmem | hmem | hmem | ⟨hmem, hn⟩
  · exact .typeAlias (ha _ hmem)
  · exact .enumeration (he _ hmem)
  · exact .structure (hs _ hmem)
  · exact .nested (hs _ hmem) hn

theorem name_sublist_declarations (ss : List Protocol.Structure) :
    (ss.map Protocol.Structure.name).Sublist ((ss.flatMap fun s =>
      (s.name, Protocol.TypeDecl.structure s) :: s.nestedStructures.map fun n =>
        (s.name ++ "::" ++ n.name, .structure s)).map Prod.fst) := by
  induction ss with
  | nil => exact .slnil
  | cons s ss ih =>
    rw [List.map_cons, List.flatMap_cons, List.map_append, List.map_cons]
    exact (ih.trans (List.sublist_append_right _ _)).cons_cons _

/-- The names in the accepted protocol denote what they denote in the metamodel. -/
theorem denotes_iff (hnodup : (declaredNames U m).Nodup) (h : resolve U m = .ok (.ok p)) :
    p.Denotes name d ↔ (unsorted U m).Denotes name d := by
  obtain ⟨st, hrun, -⟩ := resolve_eq_ok h
  obtain ⟨-, -, -, -, -, -, -, -, -, -, -, -, -, -, hes, -, -, ha, hs⟩ := model_eq_ok hrun
  rw [declaredNames, declarations, List.map_append, List.map_append, List.map_map] at hnodup
  have hpermA := sortTypeAliases_perm ha hnodup.of_append_left.of_append_left
  have hpermS := sortStructures_perm hs
    (hnodup.of_append_right.sublist (name_sublist_declarations _))
  constructor
  · refine denotes_mono (fun a ha => hpermA.mem_iff.mp ha) (fun e he => ?_)
      (fun s hs => hpermS.mem_iff.mp hs)
    rw [hes] at he
    exact he
  · refine denotes_mono (fun a ha => hpermA.mem_iff.mpr ha) (fun e he => ?_)
      (fun s hs => hpermS.mem_iff.mpr hs)
    rw [hes]
    exact he

theorem lookup_eq_some {decls : List (String × Protocol.TypeDecl)}
    (h : lookup name decls = some d) : (name, d) ∈ decls := by
  obtain ⟨⟨n, e⟩, hfind, rfl⟩ := Option.map_eq_some_iff.mp h
  have hname : n = name := by simpa using List.find?_some hfind
  rw [← hname]
  exact List.mem_of_find?_eq_some hfind

theorem lookup_of_mem {decls : List (String × Protocol.TypeDecl)}
    (hname : name ∈ decls.map Prod.fst) :
    ∃ d, lookup name decls = some d ∧ (name, d) ∈ decls := by
  cases hl : lookup name decls with
  | none => exact absurd hname (lookup_eq_none.mp hl)
  | some d => exact ⟨d, rfl, lookup_eq_some hl⟩

/-- Without nested structures what is registered for a name is what the name denotes. -/
theorem denotes_of_declared (hnested : ∀ s ∈ p.structures, s.nestedStructures = [])
    (h : (name, d) ∈ declarations p) : p.Denotes name d := by
  rw [← mem_denotations, denotations]
  rw [declarations] at h
  rcases List.mem_append.mp h with h | h
  · exact List.mem_append_left _ h
  · obtain ⟨s, hs, hmem⟩ := List.mem_flatMap.mp h
    refine List.mem_append_right _ (List.mem_flatMap.mpr ⟨s, hs, ?_⟩)
    rw [hnested s hs] at hmem ⊢
    exact hmem

mutual

theorem literalName_mem {scope : LiteralScope} {t : MetaModel.TypeImpl} (h : t.literals ≠ []) :
    scope.literalName U ∈ created U (some scope) t := by
  cases t with
  | nil | base name | reference name | stringLiteral v | integerLiteral v | booleanLiteral v =>
    simp [MetaModel.TypeImpl.literals] at h
  | array element =>
    rw [MetaModel.TypeImpl.literals] at h
    rw [created]
    exact literalName_mem h
  | map key value =>
    rw [MetaModel.TypeImpl.literals, ne_eq, List.append_eq_nil_iff, not_and_or] at h
    rw [created, List.mem_append]
    exact h.imp literalName_mem literalName_mem
  | and items | or items | tuple items =>
    rw [MetaModel.TypeImpl.literals] at h
    rw [created]
    exact literalName_memAll h
  | structureLiteral ps =>
    rw [created]
    exact List.mem_append_right _ (List.mem_singleton_self _)

theorem literalName_memAll {scope : LiteralScope} {ts : List MetaModel.TypeImpl}
    (h : MetaModel.TypeImpl.literalsAll ts ≠ []) :
    scope.literalName U ∈ createdAll U (some scope) ts := by
  cases ts with
  | nil => simp [MetaModel.TypeImpl.literalsAll] at h
  | cons t ts =>
    rw [MetaModel.TypeImpl.literalsAll, ne_eq, List.append_eq_nil_iff, not_and_or] at h
    rw [createdAll, List.mem_append]
    exact h.imp literalName_mem literalName_memAll

end

theorem nestedStructures_eq_nil {s : MetaModel.Structure}
    (h : ∀ q ∈ s.properties, q.type.literals = []) :
    (translateStructure U s).nestedStructures = [] := by
  apply List.flatMap_eq_nil_iff.mpr
  intro q hq
  rw [h q hq, translateLiterals_nil]

theorem mem_nestedStructures {s : MetaModel.Structure} {q : MetaModel.Property}
    {ps : List MetaModel.Property} (hq : q ∈ s.properties) (hps : ps ∈ q.type.literals) :
    translateLiteral U (propertyScope U s q) ps ∈ (translateStructure U s).nestedStructures :=
  List.mem_flatMap.mpr ⟨q, hq, List.mem_map_of_mem hps⟩

theorem literalName_eq (s : MetaModel.Structure) (q : MetaModel.Property)
    (ps : List MetaModel.Property) : (translateStructure U s).name ++ "::" ++
      (translateLiteral U (propertyScope U s q) ps).name = (propertyScope U s q).literalName U :=
  rfl

def ReferencesDenote (U : Unicode) (m : MetaModel) (p : Protocol) : Prop :=
  p.references.map Prod.fst = createdNames U m ∧ ∀ name decl, (name, decl) ∈ p.references →
    ∃ d, decl = some d ∧ p.Denotes name d ∧ ∀ d', p.Denotes name d' → d' = d

/-- The references of an accepted metamodel refer to what they name if and only if there is no
structure literal. -/
theorem referencesDenote_iff (h : resolve U m = .ok (.ok p)) : ReferencesDenote U m p ↔
    ∀ s ∈ m.structures, ∀ q ∈ s.properties, q.type.literals = [] := by
  obtain ⟨st, hrun, herr⟩ := resolve_eq_ok h
  obtain ⟨hiff, hrefs⟩ := model_effect hrun
  obtain ⟨-, hnodup, hdeclared⟩ := hiff.mp herr
  have hdenotes : ∀ name d, p.Denotes name d ↔ (unsorted U m).Denotes name d :=
    fun name d => denotes_iff hnodup h
  constructor
  · intro hall s hs q hq
    by_contra hliterals
    obtain ⟨ps, hps⟩ := List.exists_mem_of_ne_nil _ hliterals
    -- the reference to the literal refers to the structure around it
    have hmem : translateStructure U s ∈ (unsorted U m).structures := List.mem_map_of_mem hs
    have hnested := mem_nestedStructures (U := U) hq hps
    have hname : (propertyScope U s q).literalName U ∈ createdNames U m := by
      have hstructure : (propertyScope U s q).literalName U ∈ structureNames U s :=
        List.mem_append_right _ (List.mem_append_right _
          (List.mem_flatMap.mpr ⟨q, hq, literalName_mem hliterals⟩))
      exact List.mem_append_right _ (List.mem_append_right _ (List.mem_append_right _
        (List.mem_append_left _ (List.mem_flatMap.mpr ⟨s, hs, hstructure⟩))))
    obtain ⟨d, hd, hdmem⟩ := lookup_of_mem (hdeclared _ hname)
    have hregistered : ((propertyScope U s q).literalName U,
        Protocol.TypeDecl.structure (translateStructure U s)) ∈ declarations (unsorted U m) :=
      List.mem_append_right _ (List.mem_flatMap.mpr ⟨_, hmem, List.mem_cons_of_mem _
        (List.mem_map.mpr ⟨_, hnested, rfl⟩)⟩)
    have heq := List.inj_on_of_nodup_map hnodup hdmem hregistered rfl
    have hreference : ((propertyScope U s q).literalName U, some d) ∈ p.references := by
      rw [hrefs herr]
      exact List.mem_map.mpr ⟨(propertyScope U s q).literalName U, hname, Prod.ext rfl hd⟩
    obtain ⟨e, he, -, hunique⟩ := hall.2 _ _ hreference
    have hdenoted := Protocol.Denotes.nested hmem hnested
    rw [literalName_eq] at hdenoted
    have hliteral := hunique _ ((hdenotes _ _).mpr hdenoted)
    cases he
    rw [(Prod.mk.inj heq).2, Protocol.TypeDecl.structure.injEq] at hliteral
    have hlength := congrArg (fun s => s.nestedNames.length) hliteral
    simp [translateLiteral, translateStructure] at hlength
  · intro hliterals
    have hnone : ∀ s ∈ (unsorted U m).structures, s.nestedStructures = [] := by
      intro t ht
      obtain ⟨s, hs, rfl⟩ := List.mem_map.mp ht
      exact nestedStructures_eq_nil (hliterals s hs)
    refine ⟨?_, fun name decl hmem => ?_⟩
    · rw [hrefs herr, List.map_map]
      exact List.map_id' _
    · rw [hrefs herr] at hmem
      obtain ⟨n, hn, heq⟩ := List.mem_map.mp hmem
      obtain ⟨rfl, rfl⟩ := Prod.mk.inj heq
      obtain ⟨d, hd, hdmem⟩ := lookup_of_mem (hdeclared n hn)
      have hdenoted := denotes_of_declared hnone hdmem
      refine ⟨d, hd, (hdenotes n d).mpr hdenoted, fun d' hd' => ?_⟩
      exact denotes_unique hnodup hdenoted ((hdenotes n d').mp hd')

/-- References refer to what they name, and metamodels with names that denote nothing or two
declarations are rejected, if and only if no accepted metamodel has a structure literal and the
resolver can deal with those that must be rejected. -/
theorem resolve_references_iff (U : Unicode) (m : MetaModel) :
    ((∀ p, resolve U m = .ok (.ok p) → ReferencesDenote U m p) ∧
      (¬ Resolvable U m → ∃ message, resolve U m = .ok (.error message))) ↔
    (Handled U m ∧ Valid m ∧ Resolvable U m →
      ∀ s ∈ m.structures, ∀ q ∈ s.properties, q.type.literals = []) ∧
    (¬ Resolvable U m → Handled U m) := by
  constructor
  · intro h
    obtain ⟨haccepted, hrejected⟩ := h
    constructor
    · intro hm
      obtain ⟨p, hp⟩ := resolve_accepts_iff.mpr hm
      exact (referencesDenote_iff hp).mp (haccepted p hp)
    · intro hm
      obtain ⟨message, hmessage⟩ := hrejected hm
      exact model_returns_iff.mp (resolve_returns.mp ⟨_, hmessage⟩)
  · intro h
    obtain ⟨hliterals, hhandled⟩ := h
    refine ⟨fun p hp => ?_, fun hm => resolve_rejects (hhandled hm) hm⟩
    exact (referencesDenote_iff hp).mpr (hliterals (resolve_accepts_iff.mp ⟨p, hp⟩))

def serverCapabilities : MetaModel.Structure where
  name := "ServerCapabilities"
  properties := [⟨"workspace", true, .structureLiteral [⟨"configuration", true, .base "boolean"⟩]⟩]

/-- A metamodel with a structure literal. -/
def serverModel : MetaModel where
  structures := [serverCapabilities]

def capabilities : Protocol.Structure := translateStructure asciiTables serverCapabilities

def workspace : Protocol.Structure where
  name := "Workspace"
  properties := [⟨"configuration", "configuration", true, .boolean⟩]
  nestedNames := ["ServerCapabilities", "Workspace"]

def serverProtocol : Protocol where
  structures := [capabilities]
  references := [("ServerCapabilities::Workspace", some (.structure capabilities))]

theorem resolve_serverModel : resolve asciiTables serverModel = .ok (.ok serverProtocol) := by rfl

theorem workspace_mem : workspace ∈ capabilities.nestedStructures := by
  have hnested : capabilities.nestedStructures = [workspace] := by rfl
  rw [hnested]
  exact List.mem_singleton_self _

theorem workspace_name : capabilities.name ++ "::" ++ workspace.name =
    "ServerCapabilities::Workspace" := by rfl

theorem workspace_reference_misses : resolve asciiTables serverModel = .ok (.ok serverProtocol) ∧
    ("ServerCapabilities::Workspace", some (.structure capabilities)) ∈ serverProtocol.references ∧
    serverProtocol.Denotes "ServerCapabilities::Workspace" (.structure workspace) ∧
    ¬ ∀ p, resolve asciiTables serverModel = .ok (.ok p) →
      ReferencesDenote asciiTables serverModel p := by
  have hmem : ("ServerCapabilities::Workspace", some (.structure capabilities)) ∈
      serverProtocol.references := List.mem_singleton_self _
  have hdenotes :
      serverProtocol.Denotes "ServerCapabilities::Workspace" (.structure workspace) := by
    rw [← workspace_name]
    exact .nested (List.mem_singleton_self _) workspace_mem
  refine ⟨resolve_serverModel, hmem, hdenotes, fun hall => ?_⟩
  obtain ⟨d, hd, -, hunique⟩ := (hall serverProtocol resolve_serverModel).2 _ _ hmem
  have heq := hunique _ hdenotes
  cases hd
  rw [Protocol.TypeDecl.structure.injEq] at heq
  have hlength := congrArg (fun s => s.nestedNames.length) heq
  revert hlength
  decide

end Denotations

end Resolver

end Langsvr
