import Mathlib.Order.Nat
import StateHistory.Proofs.Schema.Acceptance

/-! # The cases of variants

A variant is looked up under its name or under an alias of it (`Document.Offers`), and the places in its list
of cases are the tags of the cases (`Document.Lists`). `Catalog.variantCase` is the case in a place
(`variantCase_eq_ok_iff`), and `Catalog.variantTag` the first place of a case (`variantTag_eq_ok_iff`). -/

namespace StateHistory.Schema

namespace Document

variable {d : Document}

/-- Aliases, if any, lead from a name to a variant with the given cases. -/
def Offers (d : Document) (name : String) (cases : List String) : Prop :=
  ∃ v ∈ d.variants, v.cases = cases ∧ ∃ n, d.Renames n name v.name

/-- Under a name, a variant has a case in the given place. -/
def Lists (d : Document) (name : String) (place : Nat) (type : String) : Prop :=
  ∃ cases, d.Offers name cases ∧ cases[place]? = some type

theorem name_mem_declaredNames_of_variant {v : VariantDef} (h : v ∈ d.variants) : v.name ∈ d.declaredNames := by
  rw [declaredNames]
  exact List.mem_append_right _ (List.mem_map_of_mem h)

/-- No variant is an alias. -/
theorem WellNamed.alias_ne_variant (h : d.WellNamed) {v : VariantDef} (hv : v ∈ d.variants) :
    ∀ a ∈ d.aliases, a.name ≠ v.name := by
  intro a ha hname
  have hnodup := h.nodup
  rw [declaredNames] at hnodup
  have hdisjoint := (List.nodup_append'.mp hnodup).2.2
  exact hdisjoint (List.mem_append_left _ (List.mem_map.mpr ⟨a, ha, hname⟩)) (List.mem_map_of_mem hv)

theorem Renames.mem_declaredNames {n : Nat} {s t : String} (h : d.Renames n s t) (ht : t ∈ d.declaredNames) :
    s ∈ d.declaredNames := by
  cases h with
  | refl => exact ht
  | step ha _ => exact name_mem_declaredNames_of_alias ha

/-- The aliases from a name lead to one name that is no alias. -/
theorem WellNamed.renames_unique (h : d.WellNamed) {n n' : Nat} {s t t' : String} (hs : d.Renames n s t)
    (hs' : d.Renames n' s t') (ht : ∀ a ∈ d.aliases, a.name ≠ t) (ht' : ∀ a ∈ d.aliases, a.name ≠ t') :
    t = t' := by
  induction hs generalizing n' with
  | refl =>
      cases hs' with
      | refl => rfl
      | step ha' _ => exact absurd rfl (ht _ ha')
  | step ha _ ih =>
      generalize hname : AliasDef.name _ = name at hs'
      cases hs' with
      | refl => exact absurd hname (ht' _ ha)
      | step ha' hrest =>
          rw [← h.alias_eq ha ha' hname] at hrest
          exact ih hrest ht

/-- In an accepted document there are never too many aliases on the way to a variant. -/
theorem WellFormed.settles_of_renames (h : d.WellFormed) {v : VariantDef} (hv : v ∈ d.variants) {n : Nat}
    {name : String} (hpath : d.Renames n name v.name) : d.Settles maxChain name v.name := by
  have hnames := h.toWellNamed
  have hplain := hnames.alias_ne_variant hv
  by_cases halias : ∃ a ∈ d.aliases, a.name = name
  · obtain ⟨a, ha, rfl⟩ := halias
    obtain ⟨t, hsettles⟩ := h.settles a ha
    obtain ⟨⟨m, -, hpath'⟩, ht⟩ := id hsettles
    rwa [hnames.renames_unique hpath hpath' hplain ht]
  · cases hpath with
    | refl => exact (settles_of_plain hplain).mpr rfl
    | step ha _ => exact absurd ⟨_, ha, rfl⟩ halias

end Document

namespace Catalog

variable {d : Document} {c : Catalog} {name type : String}

theorem variantCases_eq_ok_iff {cases : List TypeRef} : c.variantCases name = .ok cases ↔
    ∃ target, c.resolve name = .ok (.named target) ∧ c.find? target = some (.variant cases) := by
  rw [variantCases, bind_eq_ok_iff]
  constructor
  · rintro ⟨t, hresolve, hcases⟩
    cases t with
    | named target =>
        obtain ⟨layout, hget, hcases⟩ := bind_eq_ok_iff.mp hcases
        cases layout <;> cases hcases
        exact ⟨target, hresolve, get_eq_ok_iff.mp hget⟩
    | _ => cases hcases
  · rintro ⟨target, hresolve, hfind⟩
    refine ⟨_, hresolve, ?_⟩
    dsimp only
    rw [get_eq_ok_iff.mpr hfind]
    rfl

/-- A name that is resolved to a name is itself one, and is known. -/
theorem contains_of_resolve_eq_named {target : String} (h : c.resolve name = .ok (.named target)) :
    c.contains (TypeRef.parse name).baseName := by
  rw [resolve, maxChain] at h
  cases hparse : TypeRef.parse name with
  | named base =>
      rw [hparse, resolveFrom, bind_eq_ok_iff] at h
      obtain ⟨layout, hget, -⟩ := h
      rw [TypeRef.baseName, contains, get_eq_ok_iff.mp hget]
      rfl
  | _ =>
      rw [hparse] at h
      cases h

/-- A name from which aliases lead to a declared one stands for that one. -/
theorem resolve_of_settles (hd : ofDocument d = .ok c) {target : String} (ht : target ∈ d.declaredNames)
    (h : d.Settles maxChain name target) : c.resolve name = .ok (.named target) := by
  obtain ⟨n, -, hpath⟩ := h.1
  have hknown : d.Knows name := ⟨name, List.mem_append_right _ (hpath.mem_declaredNames ht), .plain⟩
  have hparse := TypeRef.parse_name ((wellFormed_of_ofDocument hd).unmodified _ ht)
  exact (resolve_eq_ok_iff hd hknown).mpr ⟨target, h, hparse⟩

theorem find?_eq_variant_iff (hd : ofDocument d = .ok c) {cases : List TypeRef} :
    c.find? name = some (.variant cases) ↔ ∃ v ∈ d.variants, v.name = name ∧ v.cases.map TypeRef.parse = cases := by
  rw [(typesOf_ofDocument hd).find?_eq_some_iff (wellFormed_of_ofDocument hd).toWellNamed]
  constructor
  · rintro ⟨⟩
    exact ⟨_, ‹_›, rfl, rfl⟩
  · rintro ⟨v, hv, rfl, rfl⟩
    exact .variant hv

/-- The cases of a variant are those that the document offers. -/
theorem variantCases_eq_ok_iff_offers (hd : ofDocument d = .ok c) {cases : List TypeRef} :
    c.variantCases name = .ok cases ↔ ∃ types, d.Offers name types ∧ types.map TypeRef.parse = cases := by
  have hformed := wellFormed_of_ofDocument hd
  simp only [variantCases_eq_ok_iff, find?_eq_variant_iff hd]
  constructor
  · rintro ⟨_, hresolve, v, hv, rfl, rfl⟩
    have hknown := (typesOf_ofDocument hd).contains_iff.mp (contains_of_resolve_eq_named hresolve)
    obtain ⟨t, ⟨⟨n, -, hpath⟩, -⟩, ht⟩ :=
      (resolve_eq_ok_iff hd (hformed.toWellNamed.knows_iff.mpr hknown)).mp hresolve
    rw [(TypeRef.parse_eq_named_iff.mp ht).1] at hpath
    exact ⟨_, ⟨v, hv, rfl, n, hpath⟩, rfl⟩
  · rintro ⟨_, ⟨v, hv, rfl, n, hpath⟩, rfl⟩
    have hdeclared := Document.name_mem_declaredNames_of_variant hv
    exact ⟨v.name, resolve_of_settles hd hdeclared (hformed.settles_of_renames hv hpath), v, hv, rfl, rfl⟩

theorem exists_offers_of_find? (hd : ofDocument d = .ok c) {cases : List TypeRef}
    (h : c.find? name = some (.variant cases)) : ∃ types, d.Offers name types ∧ types.map TypeRef.parse = cases := by
  obtain ⟨v, hv, rfl, hcases⟩ := (find?_eq_variant_iff hd).mp h
  exact ⟨v.cases, ⟨v, hv, rfl, 0, .refl⟩, hcases⟩

theorem offers_unique (hd : ofDocument d = .ok c) {types types' : List String} (h : d.Offers name types)
    (h' : d.Offers name types') : types = types' := by
  have hcases := (variantCases_eq_ok_iff_offers hd).mpr ⟨types, h, rfl⟩
  have hcases' := (variantCases_eq_ok_iff_offers hd).mpr ⟨types', h', rfl⟩
  have hparse : types.map TypeRef.parse = types'.map TypeRef.parse := Except.ok.inj (hcases.symm.trans hcases')
  exact List.map_injective_iff.mpr (Function.LeftInverse.injective TypeRef.render_parse) hparse

theorem lists_iff (hd : ofDocument d = .ok c) {types : List String} (h : d.Offers name types) {place : Nat} :
    d.Lists name place type ↔ types[place]? = some type := by
  refine ⟨fun ⟨types', h', htype⟩ => ?_, fun htype => ⟨types, h, htype⟩⟩
  rwa [offers_unique hd h h']

theorem lists_unique (hd : ofDocument d = .ok c) {place : Nat} {type' : String} (h : d.Lists name place type)
    (h' : d.Lists name place type') : type = type' := by
  obtain ⟨types, htypes, htype⟩ := h
  rw [lists_iff hd htypes, htype] at h'
  exact Option.some.inj h'

/-- A tag selects the case in its place. -/
theorem variantCase_eq_ok_iff (hd : ofDocument d = .ok c) {tag : UInt32} {case : TypeRef} :
    c.variantCase name tag = .ok case ↔ ∃ type, d.Lists name tag.toNat type ∧ TypeRef.parse type = case := by
  rw [variantCase, bind_eq_ok_iff]
  simp only [variantCases_eq_ok_iff_offers hd]
  constructor
  · rintro ⟨_, ⟨types, htypes, rfl⟩, hcase⟩
    split at hcase
    · rename_i hplace
      obtain rfl := Except.ok.inj hcase
      obtain ⟨type, htype, rfl⟩ := by simpa using hplace
      exact ⟨type, ⟨types, htypes, htype⟩, rfl⟩
    · cases hcase
  · rintro ⟨type, ⟨types, htypes, htype⟩, rfl⟩
    refine ⟨_, ⟨types, htypes, rfl⟩, ?_⟩
    rw [List.getElem?_map, htype]
    rfl

theorem variantCase_eq_parse_iff (hd : ofDocument d = .ok c) {tag : UInt32} :
    c.variantCase name tag = .ok (.parse type) ↔ d.Lists name tag.toNat type := by
  rw [variantCase_eq_ok_iff hd]
  constructor
  · rintro ⟨type', hlisted, htype⟩
    rwa [← Function.LeftInverse.injective TypeRef.render_parse htype]
  · exact fun hlisted => ⟨type, hlisted, rfl⟩

theorem findIdx?_render_eq_some_iff {types : List String} {place : Nat} :
    (types.map TypeRef.parse).findIdx? (·.render == type) = some place ↔
      IsLeast {place | types[place]? = some type} place := by
  rw [List.findIdx?_map, List.findIdx?_eq_some_iff_getElem]
  simp only [Function.comp, TypeRef.render_parse, beq_iff_eq]
  constructor
  · rintro ⟨hlt, htype, hearlier⟩
    refine ⟨List.getElem?_eq_some_iff.mpr ⟨hlt, htype⟩, fun other hother => Nat.not_lt.mp fun hless => ?_⟩
    exact hearlier other hless (List.getElem?_eq_some_iff.mp hother).2
  · rintro ⟨hplace, hleast⟩
    obtain ⟨hlt, htype⟩ := List.getElem?_eq_some_iff.mp hplace
    refine ⟨hlt, htype, fun other hless hother => Nat.not_le.mpr hless (hleast ?_)⟩
    exact List.getElem?_eq_some_iff.mpr ⟨_, hother⟩

/-- The tag of a case is the first place in which the variant has it. -/
theorem variantTag_eq_ok_iff (hd : ofDocument d = .ok c) {tag : UInt32} :
    c.variantTag name type = .ok tag ↔
      ∃ place, IsLeast {place | d.Lists name place type} place ∧ UInt32.ofNat place = tag := by
  rw [variantTag, bind_eq_ok_iff]
  simp only [variantCases_eq_ok_iff_offers hd]
  constructor
  · rintro ⟨_, ⟨types, htypes, rfl⟩, htag⟩
    split at htag
    · rename_i place hplace
      refine ⟨place, ?_, Except.ok.inj htag⟩
      simpa only [lists_iff hd htypes] using findIdx?_render_eq_some_iff.mp hplace
    · cases htag
  · rintro ⟨place, hleast, rfl⟩
    obtain ⟨types, htypes, -⟩ := hleast.1
    simp only [lists_iff hd htypes] at hleast
    refine ⟨_, ⟨types, htypes, rfl⟩, ?_⟩
    rw [findIdx?_render_eq_some_iff.mpr hleast]

/-- A case has a tag exactly if the variant has it somewhere. -/
theorem exists_variantTag_iff (hd : ofDocument d = .ok c) :
    (∃ tag, c.variantTag name type = .ok tag) ↔ ∃ types, d.Offers name types ∧ type ∈ types := by
  simp only [variantTag_eq_ok_iff hd]
  constructor
  · rintro ⟨_, place, ⟨⟨types, htypes, htype⟩, -⟩, -⟩
    exact ⟨types, htypes, List.mem_of_getElem? htype⟩
  · rintro ⟨types, htypes, hmem⟩
    obtain ⟨place, hplace⟩ := List.mem_iff_getElem?.mp hmem
    have hlisted : ∃ place, d.Lists name place type := ⟨place, types, htypes, hplace⟩
    classical
    exact ⟨_, Nat.find hlisted, Nat.isLeast_find hlisted, rfl⟩

end Catalog

end StateHistory.Schema
