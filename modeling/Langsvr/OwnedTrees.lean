import Mathlib.Data.Finset.Card
import Mathlib.Data.Finset.Union
import Mathlib.Data.Fintype.Basic
import Mathlib.Tactic.Common

/-!
# Trees of values

Contents are nothing, or a value with what each of its members contains. A path of members leads
into the contents, and what is found behind it can be replaced. Trees of which the values have
addresses are separated if no address occurs twice.
-/

namespace Langsvr

/-- Nothing, or a value with what each of its members contains. -/
inductive Contents (ι β : Type) where
  | empty
  | value (x : β) (members : ι → Contents ι β)

namespace Contents

variable {ι β γ : Type}

def map (g : β → γ) : Contents ι β → Contents ι γ
  | empty => empty
  | value x members => value (g x) fun f => (members f).map g

/-- What is found behind a path of members, if there is a value at each step. -/
def find : Contents ι β → List ι → Option (Contents ι β)
  | t, [] => some t
  | empty, _ :: _ => none
  | value _ members, f :: π => (members f).find π

def put [DecidableEq ι] (t : Contents ι β) (π : List ι) (u : Contents ι β) : Contents ι β :=
  match t, π with
  | _, [] => u
  | empty, _ :: _ => empty
  | value x members, f :: π => value x (Function.update members f ((members f).put π u))

section Paths

variable {t u v w : Contents ι β} {x : β} {members : ι → Contents ι β} {f : ι} {π ρ τ : List ι}

@[simp] theorem find_nil : t.find [] = some t := by
  cases t <;> rfl

@[simp] theorem find_value_cons : (value x members).find (f :: π) = (members f).find π := rfl

theorem find_append (t : Contents ι β) (π τ : List ι) :
    t.find (π ++ τ) = (t.find π).bind fun v => v.find τ := by
  induction π generalizing t with
  | nil => simp
  | cons f π ih =>
    cases t with
    | empty => rfl
    | value x members => exact ih (members f)

theorem find_cons_eq_some (h : t.find (f :: π) = some v) :
    ∃ x members, t = value x members ∧ (members f).find π = some v := by
  cases t with
  | empty => cases h
  | value x members => exact ⟨x, members, rfl, h⟩

@[simp] theorem map_empty (g : β → γ) : (empty : Contents ι β).map g = empty := rfl

@[simp] theorem map_value (g : β → γ) :
    (value x members).map g = value (g x) fun f => (members f).map g := rfl

theorem find_map (g : β → γ) (t : Contents ι β) (π : List ι) :
    (t.map g).find π = (t.find π).map (map g) := by
  induction π generalizing t with
  | nil => simp
  | cons f π ih =>
    cases t with
    | empty => rfl
    | value x members => exact ih (members f)

variable [DecidableEq ι]

@[simp] theorem put_nil : t.put [] u = u := by
  cases t <;> rfl

@[simp] theorem put_empty_cons : (empty : Contents ι β).put (f :: π) u = empty := rfl

@[simp] theorem put_value_cons : (value x members).put (f :: π) u =
    value x (Function.update members f ((members f).put π u)) := rfl

theorem map_put (g : β → γ) (t : Contents ι β) (π : List ι) :
    (t.put π u).map g = (t.map g).put π (u.map g) := by
  induction π generalizing t with
  | nil => simp
  | cons f π ih =>
    cases t with
    | empty => rfl
    | value x members =>
      simp only [put_value_cons, map_value, value.injEq, true_and]
      funext e
      by_cases he : e = f
      · subst he
        simp [ih]
      · simp [he]

theorem find_put (h : t.find π = some v) : (t.put π u).find π = some u := by
  induction π generalizing t with
  | nil => simp
  | cons f π ih =>
    obtain ⟨x, members, rfl, hf⟩ := find_cons_eq_some h
    simpa using ih hf

/-- Behind a path that is longer the new contents are found. -/
theorem find_put_append (h : t.find π = some v) : (t.put π u).find (π ++ τ) = u.find τ := by
  rw [find_append, find_put h, Option.bind_some]

/-- Behind a path that is shorter the replacement takes place inside what is found. -/
theorem find_put_of_append (t : Contents ι β) (ρ τ : List ι) :
    (t.put (ρ ++ τ) u).find ρ = (t.find ρ).map fun w => w.put τ u := by
  induction ρ generalizing t with
  | nil => simp
  | cons f ρ ih =>
    cases t with
    | empty => rfl
    | value x members => simpa using ih (members f)

/-- Behind a path that leads elsewhere nothing changes. -/
theorem find_put_of_ne (t : Contents ι β) (hπ : ¬ π <+: ρ) (hρ : ¬ ρ <+: π) :
    (t.put π u).find ρ = t.find ρ := by
  induction π generalizing t ρ with
  | nil => exact absurd List.nil_prefix hπ
  | cons f π ih =>
    cases ρ with
    | nil => exact absurd List.nil_prefix hρ
    | cons g ρ =>
      cases t with
      | empty => rfl
      | value x members =>
        by_cases hg : g = f
        · subst hg
          simp only [List.cons_prefix_cons, true_and] at hπ hρ
          simpa using ih (members g) hπ hρ
        · simp [hg]

@[simp] theorem put_put (t : Contents ι β) (π : List ι) : (t.put π u).put π w = t.put π w := by
  induction π generalizing t with
  | nil => simp
  | cons f π ih =>
    cases t with
    | empty => rfl
    | value x members => simp [ih]

/-- A replacement inside of what is replaced afterwards is not seen. -/
theorem put_append_put (t : Contents ι β) (π τ : List ι) :
    (t.put (π ++ τ) u).put π w = t.put π w := by
  induction π generalizing t with
  | nil => simp
  | cons f π ih =>
    cases t with
    | empty => rfl
    | value x members => simp [ih]

theorem put_comm (t : Contents ι β) (hπ : ¬ π <+: ρ) (hρ : ¬ ρ <+: π) :
    (t.put π u).put ρ w = (t.put ρ w).put π u := by
  induction π generalizing t ρ with
  | nil => exact absurd List.nil_prefix hπ
  | cons f π ih =>
    cases ρ with
    | nil => exact absurd List.nil_prefix hρ
    | cons g ρ =>
      cases t with
      | empty => rfl
      | value x members =>
        by_cases hg : g = f
        · subst hg
          simp only [List.cons_prefix_cons, true_and] at hπ hρ
          simp [ih (members g) hπ hρ]
        · have hf : f ≠ g := fun he => hg he.symm
          simp only [put_value_cons, Function.update_of_ne hg, Function.update_of_ne hf]
          rw [Function.update_comm hf]

theorem put_find (h : t.find π = some v) : t.put π v = t := by
  induction π generalizing t with
  | nil => simpa using h.symm
  | cons f π ih =>
    obtain ⟨x, members, rfl, hf⟩ := find_cons_eq_some h
    simp [ih hf]

/-- Where a path leads nowhere, nothing is replaced. -/
theorem put_of_find_eq_none (h : t.find π = none) : t.put π u = t := by
  induction π generalizing t with
  | nil => simp at h
  | cons f π ih =>
    cases t with
    | empty => rfl
    | value x members =>
      rw [put_value_cons, ih h, Function.update_eq_self]

theorem put_append_empty (h : t.find π = some v) (hτ : τ ≠ []) :
    (t.put π empty).put (π ++ τ) w = t.put π empty := by
  induction π generalizing t with
  | nil =>
    cases τ with
    | nil => exact absurd rfl hτ
    | cons f τ => simp
  | cons f π ih =>
    obtain ⟨x, members, rfl, hf⟩ := find_cons_eq_some h
    simp [ih hf]

end Paths

section Addresses

variable {t u v : Contents ι (ℕ × β)} {x : ℕ × β} {members : ι → Contents ι (ℕ × β)} {f : ι}
  {π : List ι} {p : ℕ}

variable [Fintype ι]

def addresses : Contents ι (ℕ × β) → Finset ℕ
  | empty => ∅
  | value x members => insert x.1 (Finset.univ.biUnion fun f => (members f).addresses)

@[simp] theorem addresses_empty : (empty : Contents ι (ℕ × β)).addresses = ∅ := rfl

@[simp] theorem mem_addresses_value :
    p ∈ (value x members).addresses ↔ p = x.1 ∨ ∃ f, p ∈ (members f).addresses := by
  simp [addresses]

theorem mem_addresses_self : x.1 ∈ (value x members).addresses := mem_addresses_value.mpr (.inl rfl)

theorem mem_addresses_member (h : p ∈ (members f).addresses) : p ∈ (value x members).addresses :=
  mem_addresses_value.mpr (.inr ⟨f, h⟩)

theorem exists_mem_addresses (h : t ≠ empty) : ∃ p, p ∈ t.addresses := by
  cases t with
  | empty => exact absurd rfl h
  | value x members => exact ⟨x.1, mem_addresses_self⟩

/-- The addresses are those that paths lead to. -/
theorem mem_addresses_iff : p ∈ t.addresses ↔
    ∃ π y members, t.find π = some (value (p, y) members) := by
  induction t with
  | empty =>
    simp only [addresses_empty, Finset.notMem_empty, false_iff]
    rintro ⟨π, y, members, h⟩
    cases π with
    | nil => cases h
    | cons f π => cases h
  | value x members ih =>
    rw [mem_addresses_value]
    constructor
    · rintro (rfl | ⟨f, hf⟩)
      · exact ⟨[], x.2, members, rfl⟩
      · obtain ⟨π, y, members', h⟩ := (ih f).mp hf
        exact ⟨f :: π, y, members', h⟩
    · rintro ⟨π, y, members', h⟩
      cases π with
      | nil =>
        cases h
        exact .inl rfl
      | cons f π => exact .inr ⟨f, (ih f).mpr ⟨π, y, members', h⟩⟩

def Apart {κ : Type} (ts : κ → Contents ι (ℕ × β)) : Prop :=
  ∀ i j p, p ∈ (ts i).addresses → p ∈ (ts j).addresses → i = j

/-- No address occurs twice. -/
def Separated : Contents ι (ℕ × β) → Prop
  | empty => True
  | value x members => (∀ f, (members f).Separated) ∧ (∀ f, x.1 ∉ (members f).addresses) ∧
    Apart members

theorem find_addresses (h : t.find π = some v) (hp : p ∈ v.addresses) : p ∈ t.addresses := by
  induction π generalizing t with
  | nil =>
    cases find_nil.symm.trans h
    exact hp
  | cons f π ih =>
    obtain ⟨x, members, rfl, hf⟩ := find_cons_eq_some h
    exact mem_addresses_member (ih hf)

theorem Separated.find (ht : t.Separated) (h : t.find π = some v) : v.Separated := by
  induction π generalizing t with
  | nil =>
    cases find_nil.symm.trans h
    exact ht
  | cons f π ih =>
    obtain ⟨x, members, rfl, hf⟩ := find_cons_eq_some h
    exact ih (ht.1 f) hf

/-- Each member has fewer addresses than the value. -/
theorem Separated.card_lt (ht : (value x members).Separated) (f : ι) :
    (members f).addresses.card < (value x members).addresses.card := by
  apply Finset.card_lt_card
  refine Finset.ssubset_iff_subset_ne.mpr ⟨fun p hp => ?_, fun he => ?_⟩
  · exact mem_addresses_member hp
  · refine ht.2.1 f ?_
    rw [he]
    exact mem_addresses_self

/-- If the value has at most so many addresses and one more, each member has at most so many. -/
theorem Separated.card_le {n : ℕ} (ht : (value x members).Separated)
    (hn : (value x members).addresses.card ≤ n + 1) (f : ι) : (members f).addresses.card ≤ n :=
  Nat.le_of_lt_succ ((ht.card_lt f).trans_le hn)

/-- One of the trees is replaced by one that shares no address with the others. -/
theorem Apart.update {κ : Type} [DecidableEq κ] {ts : κ → Contents ι (ℕ × β)} (h : Apart ts)
    {i : κ} (hu : ∀ j ≠ i, ∀ p ∈ u.addresses, p ∉ (ts j).addresses) :
    Apart (Function.update ts i u) := by
  intro j l p hj hl
  by_cases hji : j = i
  · by_cases hli : l = i
    · exact hji.trans hli.symm
    · subst hji
      rw [Function.update_self] at hj
      rw [Function.update_of_ne hli] at hl
      exact absurd hl (hu l hli p hj)
  · rw [Function.update_of_ne hji] at hj
    by_cases hli : l = i
    · subst hli
      rw [Function.update_self] at hl
      exact absurd hj (hu j hji p hl)
    · rw [Function.update_of_ne hli] at hl
      exact h j l p hj hl

variable [DecidableEq ι]

/-- The replaced contents give up their addresses to the new ones. -/
theorem mem_addresses_put (ht : t.Separated) (h : t.find π = some v) :
    p ∈ (t.put π u).addresses ↔ p ∈ u.addresses ∨ p ∈ t.addresses ∧ p ∉ v.addresses := by
  induction π generalizing t with
  | nil =>
    cases find_nil.symm.trans h
    simp
  | cons f π ih =>
    obtain ⟨x, members, rfl, hf⟩ := find_cons_eq_some h
    have hsub : ∀ {q}, q ∈ v.addresses → q ∈ (members f).addresses := find_addresses hf
    have hx : x.1 ∉ v.addresses := fun hv => ht.2.1 f (hsub hv)
    have hother : ∀ e ≠ f, p ∈ (members e).addresses → p ∉ v.addresses :=
      fun e he hp hv => he (ht.2.2 e f p hp (hsub hv))
    rw [put_value_cons, mem_addresses_value, mem_addresses_value]
    constructor
    · rintro (rfl | ⟨e, he⟩)
      · exact .inr ⟨.inl rfl, hx⟩
      · by_cases hef : e = f
        · subst hef
          rw [Function.update_self, ih (ht.1 e) hf] at he
          exact he.imp_right fun hp => ⟨.inr ⟨e, hp.1⟩, hp.2⟩
        · rw [Function.update_of_ne hef] at he
          exact .inr ⟨.inr ⟨e, he⟩, hother e hef he⟩
    · rintro (hu | ⟨rfl | ⟨e, he⟩, hv⟩)
      · refine .inr ⟨f, ?_⟩
        rw [Function.update_self]
        exact (ih (ht.1 f) hf).mpr (.inl hu)
      · exact .inl rfl
      · refine .inr ⟨e, ?_⟩
        by_cases hef : e = f
        · subst hef
          rw [Function.update_self]
          exact (ih (ht.1 e) hf).mpr (.inr ⟨he, hv⟩)
        · rwa [Function.update_of_ne hef]

theorem Separated.put (ht : t.Separated) (h : t.find π = some v) (hu : u.Separated)
    (hd : ∀ p ∈ u.addresses, p ∈ t.addresses → p ∈ v.addresses) : (t.put π u).Separated := by
  induction π generalizing t with
  | nil => simpa using hu
  | cons f π ih =>
    obtain ⟨x, members, rfl, hf⟩ := find_cons_eq_some h
    have hsub : ∀ {q}, q ∈ v.addresses → q ∈ (members f).addresses := find_addresses hf
    have hput : ((members f).put π u).Separated := by
      refine ih (ht.1 f) hf fun p hp hm => ?_
      exact hd p hp (mem_addresses_member hm)
    have hmem : ∀ p ∈ ((members f).put π u).addresses,
        p ∈ (value x members).addresses → p ∈ (members f).addresses := by
      intro p hp hm
      rcases (mem_addresses_put (ht.1 f) hf).mp hp with hu | hm
      · exact hsub (hd p hu hm)
      · exact hm.1
    rw [put_value_cons]
    refine ⟨fun e => ?_, fun e => ?_, ht.2.2.update fun e he p hp hm => ?_⟩
    · by_cases hef : e = f
      · subst hef
        rwa [Function.update_self]
      · rw [Function.update_of_ne hef]
        exact ht.1 e
    · by_cases hef : e = f
      · subst hef
        rw [Function.update_self]
        exact fun hx => ht.2.1 e (hmem _ hx mem_addresses_self)
      · rw [Function.update_of_ne hef]
        exact ht.2.1 e
    · exact he (ht.2.2 e f p hm (hmem p hp (mem_addresses_member hm)))

end Addresses

end Contents

abbrev Variables (ι β : Type) := ℕ → Contents ι β

/-- The first path, a variable and members, leads to the second one. -/
def Leads {ι : Type} (a c : ℕ × List ι) : Prop := a.1 = c.1 ∧ a.2 <+: c.2

theorem Leads.antisymm {ι : Type} {a c : ℕ × List ι} (hac : Leads a c) (hca : Leads c a) :
    a = c :=
  Prod.ext hac.1 (hac.2.eq_of_length_le hca.2.length_le)

theorem Leads.exists_cons {ι : Type} {a c : ℕ × List ι} (h : Leads a c) (hne : a ≠ c) :
    ∃ f τ, c = (a.1, a.2 ++ f :: τ) := by
  obtain ⟨hi, τ, hτ⟩ := h
  cases τ with
  | nil => exact absurd (Prod.ext hi (by simpa using hτ)) hne
  | cons f τ => exact ⟨f, τ, Prod.ext hi.symm hτ.symm⟩

instance {ι : Type} [DecidableEq ι] (a c : ℕ × List ι) : Decidable (Leads a c) :=
  inferInstanceAs (Decidable (_ ∧ _))

namespace Variables

variable {ι β γ : Type}

def find (σ : Variables ι β) (a : ℕ × List ι) : Option (Contents ι β) := (σ a.1).find a.2

def map (g : β → γ) (σ : Variables ι β) : Variables ι γ := fun i => (σ i).map g

def put [DecidableEq ι] (σ : Variables ι β) (a : ℕ × List ι) (u : Contents ι β) :
    Variables ι β :=
  Function.update σ a.1 ((σ a.1).put a.2 u)

section Paths

variable {σ : Variables ι β} {u v w : Contents ι β} {a c : ℕ × List ι}

theorem find_map (g : β → γ) (σ : Variables ι β) (a : ℕ × List ι) :
    (σ.map g).find a = (σ.find a).map (Contents.map g) :=
  Contents.find_map g (σ a.1) a.2

theorem find_append (σ : Variables ι β) (a : ℕ × List ι) (τ : List ι) :
    σ.find (a.1, a.2 ++ τ) = (σ.find a).bind fun v => v.find τ :=
  Contents.find_append (σ a.1) a.2 τ

/-- What a path leads through is a value. -/
theorem ne_empty_of_leads (ha : σ.find a = some v) (hc : σ.find c = some w) (hca : Leads c a)
    (hne : c ≠ a) : w ≠ .empty := by
  rintro rfl
  obtain ⟨hi, τ, hτ⟩ := hca
  rw [find, ← hi, ← hτ, Contents.find_append] at ha
  rw [find] at hc
  rw [hc] at ha
  cases τ with
  | nil => exact hne (Prod.ext hi (by simpa using hτ))
  | cons f τ => cases ha

variable [DecidableEq ι]

theorem map_put (g : β → γ) (σ : Variables ι β) (a : ℕ × List ι) :
    (σ.put a u).map g = (σ.map g).put a (u.map g) := by
  funext i
  by_cases hi : i = a.1
  · subst hi
    simp [map, put, Contents.map_put]
  · simp [map, put, hi]

theorem find_put (h : σ.find a = some v) : (σ.put a u).find a = some u := by
  rw [find, put, Function.update_self]
  exact Contents.find_put h

theorem find_put_append (h : σ.find a = some v) (τ : List ι) :
    (σ.put a u).find (a.1, a.2 ++ τ) = u.find τ := by
  rw [find_append, find_put h, Option.bind_some]

theorem put_of_find_eq_none (h : σ.find a = none) : σ.put a u = σ := by
  rw [put, Contents.put_of_find_eq_none h, Function.update_eq_self]

theorem find_put_of_ne (hac : ¬ Leads a c) (hca : ¬ Leads c a) :
    (σ.put a u).find c = σ.find c := by
  by_cases hi : c.1 = a.1
  · rw [find, find, put, hi, Function.update_self]
    exact Contents.find_put_of_ne _ (fun h => hac ⟨hi.symm, h⟩) fun h => hca ⟨hi, h⟩
  · rw [find, put, Function.update_of_ne hi]
    rfl

/-- Where the second path leads to the first one, the change takes place inside. -/
theorem find_put_of_leads (hca : Leads c a) :
    ∃ τ, a.2 = c.2 ++ τ ∧
      (σ.put a u).find c = (σ.find c).map fun w => w.put τ u := by
  obtain ⟨hi, τ, hτ⟩ := hca
  refine ⟨τ, hτ.symm, ?_⟩
  rw [find, find, put, ← hi, Function.update_self, ← hτ]
  exact Contents.find_put_of_append ..

/-- A source that is not inside of the target is found after the target was emptied. -/
theorem find_put_source (ha : σ.find a = some v) (hc : σ.find c = some w)
    (hac : Leads a c → a = c) : ∃ w', (σ.put a .empty).find c = some w' := by
  by_cases hca : Leads c a
  · obtain ⟨τ, -, hw⟩ := find_put_of_leads (σ := σ) (u := .empty) hca
    rw [hc] at hw
    exact ⟨_, hw⟩
  · by_cases hl : Leads a c
    · cases hac hl
      exact ⟨_, find_put ha⟩
    · exact ⟨w, (find_put_of_ne hl hca).trans hc⟩

/-- A source with a value keeps a value. -/
theorem put_source_ne_empty {w' : Contents ι β} (hc : σ.find c = some w) (hw : w ≠ .empty)
    (hac : ¬ Leads a c) (hw' : (σ.put a .empty).find c = some w') : w' ≠ .empty := by
  by_cases hca : Leads c a
  · obtain ⟨τ, hτ, hput⟩ := find_put_of_leads (σ := σ) (u := .empty) hca
    rw [hc, hw'] at hput
    cases τ with
    | nil => exact absurd ⟨hca.1.symm, by simp [hτ]⟩ hac
    | cons f τ =>
      cases w with
      | empty => exact absurd rfl hw
      | value x members =>
        rw [Option.some.inj hput]
        simp
  · rw [find_put_of_ne hac hca, hc] at hw'
    rwa [← Option.some.inj hw']

@[simp] theorem put_put (σ : Variables ι β) (a : ℕ × List ι) :
    (σ.put a u).put a w = σ.put a w := by
  simp [put]

theorem put_append_put (σ : Variables ι β) (a : ℕ × List ι) (τ : List ι) :
    (σ.put (a.1, a.2 ++ τ) u).put a w = σ.put a w := by
  simp only [put, Function.update_self, Function.update_idem, Contents.put_append_put]

theorem put_comm (σ : Variables ι β) (hac : ¬ Leads a c) (hca : ¬ Leads c a) :
    (σ.put a u).put c w = (σ.put c w).put a u := by
  by_cases hi : a.1 = c.1
  · simp only [put, ← hi, Function.update_self, Function.update_idem]
    rw [Contents.put_comm (σ a.1) (fun h => hac ⟨hi, h⟩) fun h => hca ⟨hi.symm, h⟩]
  · have hi' : c.1 ≠ a.1 := fun he => hi he.symm
    simp only [put, Function.update_of_ne hi, Function.update_of_ne hi']
    exact Function.update_comm hi _ _ _

theorem put_find (h : σ.find a = some v) : σ.put a v = σ := by
  rw [put, Contents.put_find h, Function.update_eq_self]

theorem find_put_empty (h : σ.find c = some v) (hca : Leads c a) (hne : c ≠ a) :
    (σ.put c .empty).find a = none := by
  obtain ⟨hi, τ, hτ⟩ := hca
  rw [find, put, ← hi, ← hτ, Function.update_self]
  refine (Contents.find_put_append h).trans ?_
  cases τ with
  | nil => exact absurd (Prod.ext hi (by simpa using hτ)) hne
  | cons f τ => rfl

/-- Behind the new contents, which are empty, nothing is replaced. -/
theorem put_empty_of_leads (h : σ.find c = some v) (hca : Leads c a) (hne : c ≠ a) :
    (σ.put c .empty).put a w = σ.put c .empty := by
  obtain ⟨hi, τ, hτ⟩ := hca
  have hnil : τ ≠ [] := by
    rintro rfl
    exact hne (Prod.ext hi (by simpa using hτ))
  simp only [put, ← hi, ← hτ, Function.update_self, Function.update_idem]
  rw [Contents.put_append_empty h hnil]

end Paths

section Addresses

variable [Fintype ι] {σ : Variables ι (ℕ × β)} {u v : Contents ι (ℕ × β)} {a : ℕ × List ι}
  {p : ℕ}

def Owns (σ : Variables ι (ℕ × β)) (p : ℕ) : Prop := ∃ i, p ∈ (σ i).addresses

structure Separated (σ : Variables ι (ℕ × β)) : Prop where
  trees : ∀ i, (σ i).Separated
  apart : Contents.Apart σ

theorem owns_find (h : σ.find a = some v) (hp : p ∈ v.addresses) : σ.Owns p :=
  ⟨a.1, Contents.find_addresses h hp⟩

/-- What is found behind a path owns no more than what is found on the way. -/
theorem addresses_of_leads {w : Contents ι (ℕ × β)} {c : ℕ × List ι} (ha : σ.find a = some v)
    (hc : σ.find c = some w) (hac : Leads a c) (hp : p ∈ w.addresses) : p ∈ v.addresses := by
  obtain ⟨hi, τ, hτ⟩ := hac
  rw [find, ← hi, ← hτ, Contents.find_append] at hc
  rw [find] at ha
  rw [ha] at hc
  exact Contents.find_addresses hc hp

variable [DecidableEq ι]

theorem owns_put (hσ : σ.Separated) (h : σ.find a = some v) :
    (σ.put a u).Owns p ↔ p ∈ u.addresses ∨ σ.Owns p ∧ p ∉ v.addresses := by
  have hput := Contents.mem_addresses_put (u := u) (p := p) (hσ.trees a.1) h
  constructor
  · intro hp
    obtain ⟨i, hi⟩ := hp
    by_cases hia : i = a.1
    · subst hia
      rw [put, Function.update_self, hput] at hi
      exact hi.imp_right fun hp => ⟨⟨a.1, hp.1⟩, hp.2⟩
    · rw [put, Function.update_of_ne hia] at hi
      refine .inr ⟨⟨i, hi⟩, fun hv => hia ?_⟩
      exact hσ.apart i a.1 p hi (Contents.find_addresses h hv)
  · intro hp
    rcases hp with hu | ⟨⟨i, hi⟩, hv⟩
    · refine ⟨a.1, ?_⟩
      rw [put, Function.update_self]
      exact hput.mpr (.inl hu)
    · refine ⟨i, ?_⟩
      by_cases hia : i = a.1
      · subst hia
        rw [put, Function.update_self]
        exact hput.mpr (.inr ⟨hi, hv⟩)
      · rwa [put, Function.update_of_ne hia]

theorem not_owns_put_empty (hσ : σ.Separated) (h : σ.find a = some v) :
    ∀ p ∈ v.addresses, ¬ (σ.put a .empty).Owns p := by
  intro p hp hown
  rcases (owns_put hσ h).mp hown with hempty | hrest
  · exact Finset.notMem_empty p hempty
  · exact hrest.2 hp

theorem Separated.put (hσ : σ.Separated) (h : σ.find a = some v) (hu : u.Separated)
    (hd : ∀ p ∈ u.addresses, σ.Owns p → p ∈ v.addresses) : (σ.put a u).Separated where
  trees i := by
    by_cases hia : i = a.1
    · subst hia
      rw [Variables.put, Function.update_self]
      exact (hσ.trees a.1).put h hu fun p hp ht => hd p hp ⟨a.1, ht⟩
    · rw [Variables.put, Function.update_of_ne hia]
      exact hσ.trees i
  apart := by
    refine hσ.apart.update fun j hj p hp hm => ?_
    rcases (Contents.mem_addresses_put (hσ.trees a.1) h).mp hp with hu | ht
    · exact hj (hσ.apart j a.1 p hm (Contents.find_addresses h (hd p hu ⟨j, hm⟩)))
    · exact hj (hσ.apart j a.1 p hm ht.1)

end Addresses

end Variables

end Langsvr
