import StateHistory.Proofs.Schema.Inheritance

/-! # Catalogs that refer to nothing unknown

`Catalog.check` accepts a catalog exactly if it has a layout for every type that its layouts refer to
(`Layout.references`), and every alias leads to something else than an alias soon enough
(`check_eq_ok_iff`). In the words of the document, the names of all its references are known and its
aliases settle (`Catalog.TypesOf.check_iff`). -/

namespace StateHistory.Schema

/-- The types that a layout refers to. -/
def Layout.references : Layout → List TypeRef
  | .builtin _ => []
  | .alias target => [target]
  | .struct fields => fields.map (·.type)
  | .variant cases => cases

namespace Catalog

variable {c : Catalog}

/-! ### What is checked -/

theorem get_eq_ok_iff {name : String} {layout : Layout} :
    c.get name = .ok layout ↔ c.find? name = some layout := by
  rw [get]
  cases c.find? name <;> simp

theorem checkRef_eq_ok_iff {t : TypeRef} : c.checkRef t = .ok () ↔ c.contains t.baseName := by
  rw [checkRef, discard_eq_ok_iff, contains, Option.isSome_iff_exists]
  simp only [get_eq_ok_iff]

theorem checkLayout_eq_ok_iff {name : String} {layout : Layout} :
    c.checkLayout name layout = .ok () ↔
      (∀ t ∈ layout.references, c.contains t.baseName) ∧
        ∀ target, layout = .alias target → ∃ t, c.resolve name = .ok t := by
  cases layout with
  | builtin _ => simp [checkLayout, Layout.references]
  | «alias» target =>
      rw [checkLayout, bind_eq_ok_iff, discard_eq_ok_iff]
      simp only [Layout.references, List.forall_mem_singleton, Layout.alias.injEq, forall_eq',
        ← checkRef_eq_ok_iff]
      constructor
      · rintro ⟨_, hknown, hresolve⟩
        exact ⟨hknown, hresolve⟩
      · rintro ⟨hknown, hresolve⟩
        exact ⟨(), hknown, hresolve⟩
  | struct fields =>
      rw [checkLayout, forM_eq_ok_iff]
      simp [Layout.references, checkRef_eq_ok_iff]
  | variant cases =>
      rw [checkLayout, forM_eq_ok_iff]
      simp [Layout.references, checkRef_eq_ok_iff]

/-- A catalog knows all that its layouts refer to, and its aliases can be resolved. -/
theorem check_eq_ok_iff : c.check = .ok () ↔ ∀ name layout, (name, layout) ∈ c.types →
    (∀ t ∈ layout.references, c.contains t.baseName) ∧
      ∀ target, layout = .alias target → ∃ t, c.resolve name = .ok t := by
  rw [check, forM_eq_ok_iff]
  simp only [checkLayout_eq_ok_iff, Prod.forall]

end Catalog

namespace Document

variable {d : Document} {c : Catalog}

/-! ### References -/

/-- The texts of all references in a document. -/
def references (d : Document) : List String :=
  d.aliases.map (·.target) ++ d.structs.flatMap (fun s => s.fields.map (·.type)) ++ d.variants.flatMap (·.cases)

theorem target_mem_references {a : AliasDef} (h : a ∈ d.aliases) : a.target ∈ d.references := by
  rw [references, List.append_assoc]
  exact List.mem_append_left _ (List.mem_map_of_mem h)

/-- A text refers to a known type: it is a known name, with modifiers or without. -/
def Knows (d : Document) (type : String) : Prop := ∃ name ∈ d.knownNames, TypeRef.Modified name type

theorem WellNamed.knows_iff (h : d.WellNamed) {type : String} :
    d.Knows type ↔ (TypeRef.parse type).baseName ∈ d.knownNames := by
  constructor
  · rintro ⟨name, hname, hmodified⟩
    rwa [TypeRef.baseName_parse_eq_iff.mpr ⟨hmodified, h.unmodified_of_known hname⟩]
  · intro hname
    exact ⟨_, hname, (TypeRef.baseName_parse_eq_iff.mp rfl).1⟩

theorem Declares.exists_reference (h : d.WellNamed) {name : String} {layout : Layout} {t : TypeRef}
    (hlayout : d.Declares name layout) (ht : t ∈ layout.references) :
    ∃ type ∈ d.references, TypeRef.parse type = t := by
  simp only [references, List.mem_append, List.mem_map, List.mem_flatMap]
  match hlayout with
  | .builtin _ => cases ht
  | .alias ha => exact ⟨_, .inl (.inl ⟨_, ha, rfl⟩), (List.mem_singleton.mp ht).symm⟩
  | .struct hs hfields =>
      obtain ⟨field, hfield, rfl⟩ := List.mem_map.mp ht
      obtain ⟨b, hb, hown⟩ := h.exists_struct_of_mem_flatten hs hfields hfield
      obtain ⟨f, hf, rfl⟩ := List.mem_map.mp hown
      exact ⟨f.type, .inl (.inr ⟨b, hb, f, hf, rfl⟩), rfl⟩
  | .variant hv =>
      obtain ⟨type, htype, rfl⟩ := List.mem_map.mp ht
      exact ⟨type, .inr ⟨_, hv, htype⟩, rfl⟩

/-- If all structs have layouts, some layout refers to what the document refers to. -/
theorem WellNamed.exists_declares (h : d.WellNamed)
    (hflatten : ∀ s ∈ d.structs, ∃ fields, d.flatten s = .ok fields) {type : String}
    (htype : type ∈ d.references) :
    ∃ name layout, d.Declares name layout ∧ TypeRef.parse type ∈ layout.references := by
  simp only [references, List.mem_append, List.mem_map, List.mem_flatMap] at htype
  rcases htype with (⟨a, ha, rfl⟩ | ⟨s, hs, f, hf, rfl⟩) | ⟨v, hv, hcase⟩
  · exact ⟨_, _, .alias ha, List.mem_singleton_self _⟩
  · obtain ⟨fields, hfields⟩ := hflatten s hs
    refine ⟨_, _, .struct hs hfields, ?_⟩
    have hown : ⟨f.name, TypeRef.parse f.type⟩ ∈ s.ownFields := List.mem_map_of_mem hf
    exact List.mem_map.mpr ⟨_, h.mem_flatten_of_mem_ownFields hfields hown, rfl⟩
  · exact ⟨_, _, .variant hv, List.mem_map_of_mem hcase⟩

end Document

namespace Catalog

variable {d : Document} {c : Catalog}

/-! ### Aliases -/

theorem TypesOf.resolveFrom_alias (h : c.TypesOf d) (hnames : d.WellNamed) {origin : String}
    {room : Nat} {a : AliasDef} (ha : a ∈ d.aliases) :
    c.resolveFrom origin (room + 1) (TypeRef.parse a.name) =
      c.resolveFrom origin room (TypeRef.parse a.target) := by
  have hfind : c.find? a.name = some (.alias (TypeRef.parse a.target)) :=
    (h.find?_eq_some_iff hnames).mpr (.alias ha)
  rw [TypeRef.parse_name (hnames.unmodified _ (Document.name_mem_declaredNames_of_alias ha)), resolveFrom,
    get_eq_ok_iff.mpr hfind]
  rfl

theorem TypesOf.resolveFrom_plain (h : c.TypesOf d) (hnames : d.WellNamed) {origin : String}
    {room : Nat} {s : String} (hknown : (TypeRef.parse s).baseName ∈ d.knownNames)
    (hplain : ∀ a ∈ d.aliases, a.name ≠ s) :
    c.resolveFrom origin (room + 1) (TypeRef.parse s) = .ok (TypeRef.parse s) := by
  cases hparse : TypeRef.parse s with
  | optional inner => rfl
  | array inner => rfl
  | extension inner => rfl
  | named name =>
      obtain ⟨rfl, -⟩ := TypeRef.parse_eq_named_iff.mp hparse
      rw [hparse, TypeRef.baseName, ← h.contains_iff, contains, Option.isSome_iff_exists] at hknown
      obtain ⟨layout, hlayout⟩ := hknown
      rw [resolveFrom, get_eq_ok_iff.mpr hlayout]
      cases layout with
      | builtin _ => rfl
      | struct _ => rfl
      | variant _ => rfl
      | «alias» target =>
          have hdeclares := (h.find?_eq_some_iff hnames).mp hlayout
          obtain ⟨a, ha, hname, -⟩ := Document.declares_alias_iff.mp hdeclares
          exact absurd hname (hplain a ha)

/-- A reference is resolved to where its text settles. -/
theorem TypesOf.resolveFrom_eq_ok_iff (h : c.TypesOf d) (hnames : d.WellNamed)
    (htargets : ∀ a ∈ d.aliases, d.Knows a.target) {origin s : String} {room : Nat} {t : TypeRef}
    (hs : d.Knows s) :
    c.resolveFrom origin room (TypeRef.parse s) = .ok t ↔ ∃ u, d.Settles room s u ∧ TypeRef.parse u = t := by
  induction room generalizing s with
  | zero => simp [resolveFrom, Document.not_settles_zero]
  | succ room ih =>
      by_cases halias : ∃ a ∈ d.aliases, a.name = s
      · obtain ⟨a, ha, rfl⟩ := halias
        simp only [h.resolveFrom_alias hnames ha, hnames.settles_of_alias ha]
        exact ih (htargets a ha)
      · have hplain : ∀ a ∈ d.aliases, a.name ≠ s := fun a ha hname => halias ⟨a, ha, hname⟩
        rw [h.resolveFrom_plain hnames (hnames.knows_iff.mp hs) hplain]
        simp [Document.settles_of_plain hplain]

theorem TypesOf.resolve_alias_iff (h : c.TypesOf d) (hnames : d.WellNamed)
    (htargets : ∀ a ∈ d.aliases, d.Knows a.target) {a : AliasDef} (ha : a ∈ d.aliases) :
    (∃ t, c.resolve a.name = .ok t) ↔ ∃ t, d.Settles maxChain a.name t := by
  have hknown : d.Knows a.name :=
    ⟨a.name, List.mem_append_right _ (Document.name_mem_declaredNames_of_alias ha), .plain⟩
  simp [resolve, h.resolveFrom_eq_ok_iff hnames htargets hknown]

/-! ### Documents -/

/-- What the layouts of a catalog refer to is known exactly if all references of its document are. -/
theorem TypesOf.contains_references_iff (h : c.TypesOf d) (hnames : d.WellNamed) :
    (∀ name layout, d.Declares name layout → ∀ t ∈ layout.references, c.contains t.baseName) ↔
      ∀ type ∈ d.references, d.Knows type := by
  simp only [h.contains_iff]
  constructor
  · intro hlayouts type htype
    obtain ⟨name, layout, hlayout, ht⟩ := hnames.exists_declares h.exists_flatten htype
    exact hnames.knows_iff.mpr (hlayouts name layout hlayout _ ht)
  · intro hreferences name layout hlayout t ht
    obtain ⟨type, htype, rfl⟩ := hlayout.exists_reference hnames ht
    exact hnames.knows_iff.mp (hreferences type htype)

/-- The catalog of a document is sound exactly if all references of the document are known and all its
aliases settle. -/
theorem TypesOf.check_iff (h : c.TypesOf d) (hnames : d.WellNamed) :
    c.check = .ok () ↔
      (∀ type ∈ d.references, d.Knows type) ∧ ∀ a ∈ d.aliases, ∃ t, d.Settles maxChain a.name t := by
  simp only [check_eq_ok_iff, h.mem_types_iff]
  constructor
  · intro hcheck
    have hreferences := (h.contains_references_iff hnames).mp fun name layout hlayout =>
      (hcheck name layout hlayout).1
    refine ⟨hreferences, fun a ha => ?_⟩
    have htargets : ∀ a ∈ d.aliases, d.Knows a.target := fun a ha =>
      hreferences _ (Document.target_mem_references ha)
    exact (h.resolve_alias_iff hnames htargets ha).mp ((hcheck a.name _ (.alias ha)).2 _ rfl)
  · rintro ⟨hreferences, hsettle⟩ name layout hlayout
    refine ⟨(h.contains_references_iff hnames).mpr hreferences name layout hlayout, ?_⟩
    rintro target rfl
    obtain ⟨a, ha, rfl, -⟩ := Document.declares_alias_iff.mp hlayout
    have htargets : ∀ a ∈ d.aliases, d.Knows a.target := fun a ha =>
      hreferences _ (Document.target_mem_references ha)
    exact (h.resolve_alias_iff hnames htargets ha).mpr (hsettle a ha)

end Catalog

end StateHistory.Schema
