import Langsvr.ListRelations
import Langsvr.ResolverRules

/-!
# Accepted metamodels

What is known of the protocol when the resolver returns one: its structures and aliases are
those of the metamodel, each exactly once, and no two declarations have the same name.
-/

namespace Langsvr.Resolver

variable {U : Unicode} {α β : Type}

section Passes

theorem Keeps.refl {st : State} : Keeps st st := ⟨rfl, id⟩

theorem Keeps.trans {st st' st'' : State} (h : Keeps st st') (h' : Keeps st' st'') :
    Keeps st st'' :=
  ⟨h'.scope.trans h.scope, fun he => h.err (h'.err he)⟩

theorem transform_eq_ok {f : α → M β} {P : α → β → Prop}
    (hf : ∀ x st y st', st.newStructureLiteralType = none → f x st = .ok (y, st') →
      P x y ∧ Keeps st st')
    {xs : List α} {ys : List β} {st st' : State} (hst : st.newStructureLiteralType = none)
    (h : transform f xs st = .ok (ys, st')) : List.Forall₂ P xs ys ∧ Keeps st st' := by
  induction xs generalizing ys st with
  | nil =>
    obtain ⟨rfl, rfl⟩ := pure_eq_ok.mp h
    exact ⟨.nil, Keeps.refl⟩
  | cons x xs ih =>
    obtain ⟨y, st₁, hy, h⟩ := bind_eq_ok.mp h
    obtain ⟨ys', st₂, hys, h⟩ := bind_eq_ok.mp h
    obtain ⟨rfl, rfl⟩ := pure_eq_ok.mp h
    obtain ⟨hp, hk⟩ := hf x st y st₁ hst hy
    obtain ⟨hps, hks⟩ := ih (hk.scope.trans hst) hys
    exact ⟨.cons hp hps, hk.trans hks⟩

theorem transform_eq_map {f : α → M β} {g : α → β}
    (hf : ∀ x st y st', st.newStructureLiteralType = none → f x st = .ok (y, st') →
      y = g x ∧ Keeps st st')
    {xs : List α} {ys : List β} {st st' : State} (hst : st.newStructureLiteralType = none)
    (h : transform f xs st = .ok (ys, st')) : ys = xs.map g ∧ Keeps st st' := by
  obtain ⟨hall, hk⟩ := transform_eq_ok (P := fun x y => y = g x) hf hst h
  have hmap := ListRelations.map_eq_map (f := g) (g := id) hall fun _ _ hy => hy
  rw [List.map_id] at hmap
  exact ⟨hmap, hk⟩

theorem typeImpl_translate {t : MetaModel.TypeImpl} {out : Protocol.TypeImpl} {st st' : State}
    (h : typeImpl U t st = .ok (out, st')) (hst : st.newStructureLiteralType = none) :
    out = translate U none t ∧ Keeps st st' := by
  obtain ⟨hout, hf⟩ := typeImpl_eq_ok h
  rw [hst] at hout
  exact ⟨hout, hf.keeps⟩

theorem typeImpls_translate {ts : List MetaModel.TypeImpl} {out : List Protocol.TypeImpl}
    {st st' : State} (h : typeImpls U ts st = .ok (out, st'))
    (hst : st.newStructureLiteralType = none) : out = translateAll U none ts ∧ Keeps st st' := by
  obtain ⟨hout, hf⟩ := typeImpls_eq_ok h
  rw [hst] at hout
  exact ⟨hout, hf.keeps⟩

/-- A direction that is not known is an error. -/
theorem messageDirection_cases {direction : String} {out : Protocol.MessageDirection}
    {st st' : State} (h : messageDirection direction st = .ok (out, st')) :
    out = translateDirection direction ∧ (out ≠ .invalid ∧ st' = st ∨
      out = .invalid ∧ ∃ message u, error message st = .ok (u, st')) := by
  unfold messageDirection at h
  split at h
  · obtain ⟨rfl, rfl⟩ := pure_eq_ok.mp h
    exact ⟨rfl, .inl ⟨by simp, rfl⟩⟩
  · obtain ⟨rfl, rfl⟩ := pure_eq_ok.mp h
    exact ⟨rfl, .inl ⟨by simp, rfl⟩⟩
  · obtain ⟨rfl, rfl⟩ := pure_eq_ok.mp h
    exact ⟨rfl, .inl ⟨by simp, rfl⟩⟩
  · obtain ⟨u, st₁, he, h⟩ := bind_eq_ok.mp h
    obtain ⟨rfl, rfl⟩ := pure_eq_ok.mp h
    refine ⟨?_, .inr ⟨rfl, _, u, he⟩⟩
    rw [translateDirection]
    · assumption
    · assumption
    · assumption

theorem messageDirection_eq_ok {direction : String} {out : Protocol.MessageDirection}
    {st st' : State} (h : messageDirection direction st = .ok (out, st')) :
    out = translateDirection direction ∧ Keeps st st' := by
  obtain ⟨hout, ⟨-, rfl⟩ | ⟨-, message, u, he⟩⟩ := messageDirection_cases h
  · exact ⟨hout, Keeps.refl⟩
  · exact ⟨hout, (error_eq_ok he).1.keeps⟩

theorem enumerationEntry_eq_ok {e : MetaModel.EnumerationEntry} {out : Protocol.EnumerationEntry}
    {st st' : State} (h : enumerationEntry U e st = .ok (out, st')) :
    out = translateEntry U e ∧ Keeps st st' := by
  obtain ⟨st₁, st₂, rfl, hx, rfl⟩ := inScope_eq_ok h
  obtain ⟨rfl, rfl⟩ := pure_eq_ok.mp hx
  exact ⟨rfl, rfl, id⟩

theorem enumeration_eq_ok {e : MetaModel.Enumeration} {out : Protocol.Enumeration}
    {st st' : State} (hst : st.newStructureLiteralType = none)
    (h : enumeration U e st = .ok (out, st')) :
    out = translateEnumeration U e ∧ Keeps st st' := by
  obtain ⟨st₁, st₂, rfl, hx, rfl⟩ := inScope_eq_ok h
  obtain ⟨t, st₃, ht, hx⟩ := bind_eq_ok.mp hx
  obtain ⟨vs, st₄, hvs, hx⟩ := bind_eq_ok.mp hx
  obtain ⟨rfl, rfl⟩ := pure_eq_ok.mp hx
  obtain ⟨rfl, hkt⟩ := typeImpl_translate ht hst
  obtain ⟨rfl, hkvs⟩ := transform_eq_map
    (fun e st y st' _ hy => enumerationEntry_eq_ok hy) (hkt.scope.trans hst) hvs
  have hk := hkt.trans hkvs
  exact ⟨rfl, hk.scope, hk.err⟩

theorem notification_eq_ok {n : MetaModel.Notification} {out : Protocol.Notification}
    {st st' : State} (hst : st.newStructureLiteralType = none)
    (h : notification U n st = .ok (out, st')) :
    out = translateNotification U n ∧ Keeps st st' := by
  obtain ⟨st₁, st₂, rfl, hx, rfl⟩ := inScope_eq_ok h
  obtain ⟨d, st₃, hd, hx⟩ := bind_eq_ok.mp hx
  obtain ⟨ps, st₄, hps, hx⟩ := bind_eq_ok.mp hx
  obtain ⟨o, st₅, ho, hx⟩ := bind_eq_ok.mp hx
  obtain ⟨rfl, rfl⟩ := pure_eq_ok.mp hx
  obtain ⟨rfl, hkd⟩ := messageDirection_eq_ok hd
  obtain ⟨rfl, hkps⟩ := typeImpls_translate hps (hkd.scope.trans hst)
  have hk₄ := hkd.trans hkps
  obtain ⟨rfl, hko⟩ := typeImpl_translate ho (hk₄.scope.trans hst)
  have hk := hk₄.trans hko
  exact ⟨rfl, hk.scope, hk.err⟩

theorem request_eq_ok {r : MetaModel.Request} {out : Protocol.Request}
    {st st' : State} (hst : st.newStructureLiteralType = none)
    (h : request U r st = .ok (out, st')) : out = translateRequest U r ∧ Keeps st st' := by
  obtain ⟨st₁, st₂, rfl, hx, rfl⟩ := inScope_eq_ok h
  obtain ⟨e, st₃, he, hx⟩ := bind_eq_ok.mp hx
  obtain ⟨d, st₄, hd, hx⟩ := bind_eq_ok.mp hx
  obtain ⟨ps, st₅, hps, hx⟩ := bind_eq_ok.mp hx
  obtain ⟨pr, st₆, hpr, hx⟩ := bind_eq_ok.mp hx
  obtain ⟨o, st₇, ho, hx⟩ := bind_eq_ok.mp hx
  obtain ⟨res, st₈, hres, hx⟩ := bind_eq_ok.mp hx
  obtain ⟨rfl, rfl⟩ := pure_eq_ok.mp hx
  obtain ⟨rfl, hke⟩ := typeImpl_translate he hst
  obtain ⟨rfl, hkd⟩ := messageDirection_eq_ok hd
  have hk₄ := hke.trans hkd
  obtain ⟨rfl, hkps⟩ := typeImpls_translate hps (hk₄.scope.trans hst)
  have hk₅ := hk₄.trans hkps
  obtain ⟨rfl, hkpr⟩ := typeImpl_translate hpr (hk₅.scope.trans hst)
  have hk₆ := hk₅.trans hkpr
  obtain ⟨rfl, hko⟩ := typeImpl_translate ho (hk₆.scope.trans hst)
  have hk₇ := hk₆.trans hko
  obtain ⟨rfl, hkres⟩ := typeImpl_translate hres (hk₇.scope.trans hst)
  have hk := hk₇.trans hkres
  exact ⟨rfl, hk.scope, hk.err⟩

end Passes

section Registration

theorem lookup_eq_none {name : String} {typeDecls : List (String × Protocol.TypeDecl)} :
    lookup name typeDecls = none ↔ name ∉ typeDecls.map Prod.fst := by
  simp only [lookup, Option.map_eq_none_iff, List.find?_eq_none, decide_eq_true_eq, List.mem_map,
    not_exists, not_and]

theorem mem_of_lookup_eq_some {name : String} {typeDecls : List (String × Protocol.TypeDecl)}
    {d : Protocol.TypeDecl} (h : lookup name typeDecls = some d) :
    name ∈ typeDecls.map Prod.fst := by
  by_contra hfresh
  rw [lookup_eq_none.mpr hfresh] at h
  cases h

/-- A name is registered once. The second registration is an error. -/
theorem register_cases {d : String × Protocol.TypeDecl}
    {typeDecls out : List (String × Protocol.TypeDecl)} {st st' : State}
    (h : register typeDecls d st = .ok (out, st')) :
    (d.1 ∈ typeDecls.map Prod.fst ∧ out = typeDecls ∧
      ∃ message u, error message st = .ok (u, st')) ∨
    (d.1 ∉ typeDecls.map Prod.fst ∧ out = typeDecls ++ [d] ∧ st' = st) := by
  unfold register at h
  cases hl : lookup d.1 typeDecls with
  | some existing =>
    rw [hl] at h
    obtain ⟨u, st₁, he, h⟩ := bind_eq_ok.mp h
    obtain ⟨rfl, rfl⟩ := pure_eq_ok.mp h
    exact .inl ⟨mem_of_lookup_eq_some hl, rfl, _, u, he⟩
  | none =>
    rw [hl] at h
    exact .inr ⟨lookup_eq_none.mp hl, pure_eq_ok.mp h⟩

theorem register_eq_ok {d : String × Protocol.TypeDecl}
    {typeDecls out : List (String × Protocol.TypeDecl)} {st st' : State}
    (h : register typeDecls d st = .ok (out, st')) : Keeps st st' ∧
      (st'.err = none → out = typeDecls ++ [d] ∧ d.1 ∉ typeDecls.map Prod.fst) := by
  obtain ⟨-, -, message, u, he⟩ | ⟨hfresh, hout, rfl⟩ := register_cases h
  · exact ⟨(error_eq_ok he).1.keeps, fun hnone => absurd hnone (error_eq_ok he).2⟩
  · exact ⟨Keeps.refl, fun _ => ⟨hout, hfresh⟩⟩

theorem nodup_names_snoc {typeDecls : List (String × Protocol.TypeDecl)}
    {d : String × Protocol.TypeDecl} (hnodup : (typeDecls.map Prod.fst).Nodup)
    (hfresh : d.1 ∉ typeDecls.map Prod.fst) : ((typeDecls ++ [d]).map Prod.fst).Nodup := by
  rw [List.map_append]
  refine hnodup.append (List.nodup_singleton _) ?_
  intro name hname hd
  rw [List.mem_singleton.mp hd] at hname
  exact hfresh hname

/-- Without an error every declaration is registered, and the names are distinct. -/
theorem registerAll_eq_ok {ds typeDecls out : List (String × Protocol.TypeDecl)} {st st' : State}
    (h : registerAll typeDecls ds st = .ok (out, st')) : Keeps st st' ∧
      (st'.err = none → (typeDecls.map Prod.fst).Nodup →
        out = typeDecls ++ ds ∧ ((typeDecls ++ ds).map Prod.fst).Nodup) := by
  induction ds generalizing typeDecls st with
  | nil =>
    obtain ⟨rfl, rfl⟩ := pure_eq_ok.mp h
    rw [List.append_nil]
    exact ⟨Keeps.refl, fun _ hnodup => ⟨rfl, hnodup⟩⟩
  | cons d ds ih =>
    obtain ⟨decls, st₁, hd, hrun⟩ := bind_eq_ok.mp h
    obtain ⟨hk, hreg⟩ := register_eq_ok hd
    obtain ⟨hks, hall⟩ := ih hrun
    refine ⟨hk.trans hks, ?_⟩
    intro herr hnodup
    obtain ⟨rfl, hfresh⟩ := hreg (hks.err herr)
    have hrest := hall herr (nodup_names_snoc hnodup hfresh)
    rwa [List.append_assoc, List.singleton_append] at hrest

/-- A name that is not registered is an error. -/
theorem resolveReference_cases {typeDecls : List (String × Protocol.TypeDecl)} {name : String}
    {out : String × Option Protocol.TypeDecl} {st st' : State}
    (h : resolveReference typeDecls name st = .ok (out, st')) :
    out = (name, lookup name typeDecls) ∧ (name ∈ typeDecls.map Prod.fst ∧ st' = st ∨
      name ∉ typeDecls.map Prod.fst ∧ ∃ message u, error message st = .ok (u, st')) := by
  unfold resolveReference at h
  cases hl : lookup name typeDecls with
  | some d =>
    rw [hl] at h
    obtain ⟨rfl, rfl⟩ := pure_eq_ok.mp h
    exact ⟨rfl, .inl ⟨mem_of_lookup_eq_some hl, rfl⟩⟩
  | none =>
    rw [hl] at h
    obtain ⟨u, st₁, he, h⟩ := bind_eq_ok.mp h
    obtain ⟨rfl, rfl⟩ := pure_eq_ok.mp h
    exact ⟨rfl, .inr ⟨lookup_eq_none.mp hl, _, u, he⟩⟩

theorem resolveReference_keeps {typeDecls : List (String × Protocol.TypeDecl)} {name : String}
    {out : String × Option Protocol.TypeDecl} {st st' : State}
    (h : resolveReference typeDecls name st = .ok (out, st')) : Keeps st st' := by
  obtain ⟨-, ⟨-, rfl⟩ | ⟨-, message, u, he⟩⟩ := resolveReference_cases h
  · exact Keeps.refl
  · exact (error_eq_ok he).1.keeps

/-- The reference pass finds no error only if the names of the declarations are distinct. -/
theorem resolveTypes_eq_ok {p : Protocol} {out : List (String × Option Protocol.TypeDecl)}
    {st st' : State} (hst : st.newStructureLiteralType = none)
    (h : resolveTypes p st = .ok (out, st')) (herr : st'.err = none) :
    st.err = none ∧ ((declarations p).map Prod.fst).Nodup := by
  obtain ⟨typeDecls, st₁, hd, h⟩ := bind_eq_ok.mp h
  obtain ⟨now, st₂, hget, h⟩ := bind_eq_ok.mp h
  obtain ⟨-, hst₂⟩ := get_eq_ok.mp hget
  subst hst₂
  obtain ⟨hk, hall⟩ := registerAll_eq_ok hd
  have hks := (transform_eq_ok (P := fun _ _ => True)
    (fun name st y st' _ hy => ⟨trivial, resolveReference_keeps hy⟩) (hk.scope.trans hst) h).2
  have hnone := hks.err herr
  refine ⟨hk.err hnone, ?_⟩
  have hnodup := (hall hnone List.nodup_nil).2
  rwa [List.nil_append] at hnodup

end Registration

section Accepted

variable {m : MetaModel} {p : Protocol}

/-- What the resolver has computed when it returns a protocol. -/
structure Accepted (U : Unicode) (m : MetaModel) (p : Protocol) : Prop where
  structures : sortStructures (m.structures.map (translateStructure U)) = .ok p.structures
  typeAliases : sortTypeAliases (m.typeAliases.map (translateAlias U)) = .ok p.typeAliases
  nodup : ∃ enumerations, ((declarations {
    enumerations
    structures := m.structures.map (translateStructure U)
    typeAliases := m.typeAliases.map (translateAlias U) }).map Prod.fst).Nodup

theorem lift_eq_ok {x : Except Stop α} {a : α} {st st' : State} :
    lift x st = .ok (a, st') ↔ x = .ok a ∧ st' = st := by
  cases x with
  | error e => simp [lift]
  | ok b => simp [lift, eq_comm]

/-- The passes of `model` one after the other. The pass over the references is given the
declarations in the order of the metamodel. -/
theorem model_eq_ok {st : State} (h : model U m {} = .ok (p, st)) : ∃ st₁ st₂ st₃ st₄ st₅ st₆,
    transform (enumeration U) m.enumerations { stack := ["resolving model"] } =
      .ok (p.enumerations, st₁) ∧
    transform (notification U) m.notifications st₁ = .ok (p.notifications, st₂) ∧
    transform (request U) m.requests st₂ = .ok (p.requests, st₃) ∧
    transform (structureImpl U) m.structures st₃ =
      .ok (m.structures.map (translateStructure U), st₄) ∧
    transform (typeAlias U) m.typeAliases st₄ = .ok (m.typeAliases.map (translateAlias U), st₅) ∧
    resolveTypes {
      enumerations := p.enumerations
      structures := m.structures.map (translateStructure U)
      typeAliases := m.typeAliases.map (translateAlias U) } st₅ = .ok (p.references, st₆) ∧
    st₅.newStructureLiteralType = none ∧ st.err = st₆.err ∧
    p.enumerations = m.enumerations.map (translateEnumeration U) ∧
    p.notifications = m.notifications.map (translateNotification U) ∧
    p.requests = m.requests.map (translateRequest U) ∧
    sortTypeAliases (m.typeAliases.map (translateAlias U)) = .ok p.typeAliases ∧
    sortStructures (m.structures.map (translateStructure U)) = .ok p.structures := by
  obtain ⟨st₁, st₂, rfl, hx, rfl⟩ := inScope_eq_ok h
  obtain ⟨es, st₃, he, hx⟩ := bind_eq_ok.mp hx
  obtain ⟨ns, st₄, hn, hx⟩ := bind_eq_ok.mp hx
  obtain ⟨rs, st₅, hr, hx⟩ := bind_eq_ok.mp hx
  obtain ⟨ss, st₆, hs, hx⟩ := bind_eq_ok.mp hx
  obtain ⟨as, st₇, ha, hx⟩ := bind_eq_ok.mp hx
  obtain ⟨refs, st₈, hrefs, hx⟩ := bind_eq_ok.mp hx
  obtain ⟨as', st₉, ha', hx⟩ := bind_eq_ok.mp hx
  obtain ⟨ss', st₁₀, hs', hx⟩ := bind_eq_ok.mp hx
  obtain ⟨rfl, rfl⟩ := pure_eq_ok.mp hx
  obtain ⟨hsorted, rfl⟩ := lift_eq_ok.mp ha'
  obtain ⟨hsorted', rfl⟩ := lift_eq_ok.mp hs'
  obtain ⟨hes, hke⟩ := transform_eq_map
    (fun e st y st' hst hy => enumeration_eq_ok hst hy) rfl he
  obtain ⟨hns, hkn⟩ := transform_eq_map
    (fun n st y st' hst hy => notification_eq_ok hst hy) hke.scope hn
  obtain ⟨hrs, hkr⟩ := transform_eq_map
    (fun r st y st' hst hy => request_eq_ok hst hy) (hke.trans hkn).scope hr
  have hk₅ := (hke.trans hkn).trans hkr
  obtain ⟨rfl, hks⟩ := transform_eq_map
    (fun s st y st' hst hy => structureImpl_eq_ok hst hy) hk₅.scope hs
  obtain ⟨rfl, hka⟩ := transform_eq_map
    (fun a st y st' hst hy => typeAlias_eq_ok hst hy) (hk₅.trans hks).scope ha
  exact ⟨st₃, st₄, st₅, st₆, st₇, _, he, hn, hr, hs, ha, hrefs, ((hk₅.trans hks).trans hka).scope,
    rfl, hes, hns, hrs, hsorted, hsorted'⟩

/-- A protocol is returned if the work ends without an error. -/
theorem resolve_eq_ok (h : resolve U m = .ok (.ok p)) :
    ∃ st, model U m {} = .ok (p, st) ∧ st.err = none := by
  unfold resolve at h
  cases hrun : model U m {} with
  | error e =>
    rw [hrun] at h
    cases h
  | ok r =>
    obtain ⟨q, st⟩ := r
    rw [hrun] at h
    cases herr : st.err with
    | some text =>
      simp only [herr] at h
      cases h
    | none =>
      simp only [herr] at h
      cases h
      exact ⟨st, rfl, herr⟩

theorem accepted_of_resolve (h : resolve U m = .ok (.ok p)) : Accepted U m p := by
  obtain ⟨st, hrun, herr⟩ := resolve_eq_ok h
  obtain ⟨st₁, st₂, st₃, st₄, st₅, st₆, -, -, -, -, -, hrefs, hscope, hst, -, -, -, ha, hs⟩ :=
    model_eq_ok hrun
  have hdecls := (resolveTypes_eq_ok hscope hrefs (hst ▸ herr)).2
  exact ⟨hs, ha, p.enumerations, hdecls⟩

end Accepted

end Langsvr.Resolver
