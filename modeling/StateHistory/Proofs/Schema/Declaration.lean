import Mathlib.Data.List.Forall2
import Mathlib.Data.List.Nodup
import StateHistory.Proofs.Schema.Reference
import StateHistory.Schema.Catalog

/-! # What a document declares

`Document.WellNamed` says which names a document may declare; it is what `Document.checkNames` finds out
(`checkNames_eq_ok_iff`). Under such names a catalog is a map: it holds exactly the layouts that its
document declares (`Catalog.TypesOf.find?_eq_some_iff`, `Document.Declares`). -/

namespace StateHistory

/-! ### Results that may be errors -/

section Results

variable {ε α β : Type}

theorem bind_eq_ok_iff {x : Except ε α} {f : α → Except ε β} {b : β} :
    (x >>= f) = .ok b ↔ ∃ a, x = .ok a ∧ f a = .ok b := by
  cases x <;> simp [bind, Except.bind]

theorem discard_eq_ok_iff {x : Except ε α} : discard x = .ok () ↔ ∃ a, x = .ok a := by
  cases x <;> simp [discard, Functor.mapConst, Except.map]

/-- What is known of a result that is no error. -/
theorem exists_ok_of_toOption_map {x : Except ε α} {f : α → β} {b : β} (h : x.toOption.map f = some b) :
    ∃ a, x = .ok a ∧ f a = b := by
  cases x with
  | error e => cases h
  | ok a => exact ⟨a, rfl, Option.some.inj h⟩

theorem forM_eq_ok_iff {f : α → Except ε Unit} {xs : List α} :
    xs.forM f = .ok () ↔ ∀ x ∈ xs, f x = .ok () := by
  induction xs with
  | nil => exact ⟨fun _ _ hx => (nomatch hx), fun _ => rfl⟩
  | cons x xs ih =>
      rw [List.forall_mem_cons, ← ih]
      refine bind_eq_ok_iff.trans ⟨?_, ?_⟩
      · rintro ⟨_, hx, hxs⟩
        exact ⟨hx, hxs⟩
      · rintro ⟨hx, hxs⟩
        exact ⟨(), hx, hxs⟩

theorem mapM_eq_ok_iff {f : α → Except ε β} {xs : List α} {ys : List β} :
    xs.mapM f = .ok ys ↔ List.Forall₂ (fun x y => f x = .ok y) xs ys := by
  induction xs generalizing ys with
  | nil =>
      rw [List.mapM_nil, List.forall₂_nil_left_iff]
      simp [pure, Except.pure, eq_comm]
  | cons x xs ih =>
      simp only [List.mapM_cons, bind_eq_ok_iff, List.forall₂_cons_left_iff, ih]
      constructor
      · rintro ⟨y, hy, ys', hys, h⟩
        exact ⟨y, ys', hy, hys, (Except.ok.inj h).symm⟩
      · rintro ⟨y, ys', hy, hys, rfl⟩
        exact ⟨y, hy, ys', hys, rfl⟩

/-- A list is the image of another one under a function that may fail exactly if it fails nowhere. -/
theorem exists_mapM_eq_ok_iff {f : α → Except ε β} {xs : List α} :
    (∃ ys, xs.mapM f = .ok ys) ↔ ∀ x ∈ xs, ∃ y, f x = .ok y := by
  induction xs with
  | nil => simp [pure, Except.pure]
  | cons x xs ih =>
      simp only [List.mapM_cons, bind_eq_ok_iff, List.forall_mem_cons, ← ih]
      constructor
      · rintro ⟨_, y, hy, ys, hys, -⟩
        exact ⟨⟨y, hy⟩, ys, hys⟩
      · rintro ⟨⟨y, hy⟩, ys, hys⟩
        exact ⟨y :: ys, y, hy, ys, hys, rfl⟩

theorem mem_iff_of_mapM_eq_ok {f : α → Except ε β} {xs : List α} {ys : List β} (h : xs.mapM f = .ok ys)
    {y : β} : y ∈ ys ↔ ∃ x ∈ xs, f x = .ok y := by
  rw [mapM_eq_ok_iff] at h
  induction h with
  | nil => simp
  | cons hxy _ ih =>
      simp only [List.mem_cons, exists_eq_or_imp, ih, hxy, Except.ok.injEq]
      rw [eq_comm]

theorem map_eq_of_mapM_eq_ok {γ : Type} {f : α → Except ε β} {xs : List α} {ys : List β}
    (h : xs.mapM f = .ok ys) {g : α → γ} {g' : β → γ} (hg : ∀ x y, f x = .ok y → g' y = g x) :
    ys.map g' = xs.map g := by
  rw [mapM_eq_ok_iff] at h
  induction h with
  | nil => rfl
  | cons hxy _ ih => rw [List.map_cons, List.map_cons, hg _ _ hxy, ih]

theorem mapM_eq_some_iff {f : α → Option β} {xs : List α} {ys : List β} :
    xs.mapM f = some ys ↔ List.Forall₂ (fun x y => f x = some y) xs ys := by
  induction xs generalizing ys with
  | nil =>
      rw [List.mapM_nil, List.forall₂_nil_left_iff]
      simp [pure, eq_comm]
  | cons x xs ih =>
      simp only [List.mapM_cons, Option.bind_eq_bind, Option.bind_eq_some_iff, List.forall₂_cons_left_iff, ih]
      constructor
      · rintro ⟨y, hy, ys', hys, h⟩
        exact ⟨y, ys', hy, hys, (Option.some.inj h).symm⟩
      · rintro ⟨y, ys', hy, hys, rfl⟩
        exact ⟨y, hy, ys', hys, rfl⟩

theorem exists_of_mapM_eq_some {f : α → Option β} {xs : List α} {ys : List β} (h : xs.mapM f = some ys) {x : α}
    (hx : x ∈ xs) : ∃ y, f x = some y := by
  rw [mapM_eq_some_iff] at h
  induction h with
  | nil => cases hx
  | cons hxy _ ih =>
      rcases List.mem_cons.mp hx with rfl | hx
      · exact ⟨_, hxy⟩
      · exact ih hx

/-- In a list of entries with different keys, every entry is found under its key. -/
theorem lookup_eq_some_iff_mem [DecidableEq α] {entries : List (α × β)} (h : (entries.map Prod.fst).Nodup)
    {key : α} {value : β} : entries.lookup key = some value ↔ (key, value) ∈ entries := by
  induction entries with
  | nil => simp
  | cons entry entries ih =>
      obtain ⟨key', value'⟩ := entry
      obtain ⟨hnew, hrest⟩ := List.nodup_cons.mp h
      by_cases hkey : key = key'
      · subst hkey
        have hnot : (key, value) ∉ entries := by
          intro hmem
          exact hnew (List.mem_map.mpr ⟨_, hmem, rfl⟩)
        simp [hnot, eq_comm]
      · have hbeq : (key == key') = false := by simpa using hkey
        rw [List.lookup_cons, hbeq, List.mem_cons]
        simp [ih hrest, hkey]

theorem lookup_eq_none_iff_not_mem [DecidableEq α] {entries : List (α × β)} {key : α} :
    entries.lookup key = none ↔ key ∉ entries.map Prod.fst := by
  rw [List.lookup_eq_none_iff, List.mem_map]
  constructor
  · rintro h ⟨entry, hentry, rfl⟩
    simpa using h entry hentry
  · intro h entry hentry
    simpa using fun hkey : key = entry.1 => h ⟨entry, hentry, hkey.symm⟩

end Results

namespace Schema

/-! ### Names -/

/-- The names of the builtin types. -/
def builtinNames : List String := Builtin.table.map (·.1)

theorem map_fst_builtinLayouts : builtinLayouts.map Prod.fst = builtinNames := by
  rw [builtinLayouts, builtinNames, List.map_map]
  rfl

theorem nodup_builtinNames : builtinNames.Nodup := by decide

theorem isName_builtinName : ∀ name ∈ builtinNames, TypeRef.isName name := by decide +kernel

namespace Document

variable {d : Document}

/-- The names of types that a document can refer to. -/
def knownNames (d : Document) : List String := builtinNames ++ d.declaredNames

/-- The names of a document's declarations are names, and each of them is new. -/
structure WellNamed (d : Document) : Prop where
  ne_empty : ∀ name ∈ d.declaredNames, name ≠ ""
  unmodified : ∀ name ∈ d.declaredNames, ¬ TypeRef.EndsInModifier name
  nodup : d.declaredNames.Nodup
  not_builtin : ∀ name ∈ d.declaredNames, name ∉ builtinNames

theorem checkNames_eq_ok_iff {taken names : List String} :
    checkNames taken names = .ok () ↔
      (∀ name ∈ names, TypeRef.isName name) ∧ names.Nodup ∧ ∀ name ∈ names, name ∉ taken := by
  induction names generalizing taken with
  | nil => simp [checkNames]
  | cons name names ih =>
      rw [checkNames]
      by_cases hname : TypeRef.isName name
      · by_cases htaken : name ∈ taken
        · simp [hname, htaken]
        · rw [if_neg (by simpa using hname), if_neg (by simpa using htaken), ih]
          rw [List.nodup_cons, List.forall_mem_cons, List.forall_mem_cons]
          simp only [List.mem_cons, not_or]
          constructor
          · rintro ⟨hnames, hnodup, hnew⟩
            have hfirst : name ∉ names := fun hmem => (hnew name hmem).1 rfl
            exact ⟨⟨hname, hnames⟩, ⟨hfirst, hnodup⟩, htaken, fun n hn => (hnew n hn).2⟩
          · rintro ⟨⟨-, hnames⟩, ⟨hfirst, hnodup⟩, -, hold⟩
            refine ⟨hnames, hnodup, fun n hn => ⟨?_, hold n hn⟩⟩
            rintro rfl
            exact hfirst hn
      · simp [hname]

theorem wellNamed_iff : d.WellNamed ↔ checkNames builtinNames d.declaredNames = .ok () := by
  rw [checkNames_eq_ok_iff]
  simp only [TypeRef.isName_iff]
  constructor
  · exact fun h => ⟨fun name hname => ⟨h.ne_empty name hname, h.unmodified name hname⟩, h.nodup, h.not_builtin⟩
  · exact fun ⟨hnames, hnodup, hnew⟩ =>
      ⟨fun name hname => (hnames name hname).1, fun name hname => (hnames name hname).2, hnodup, hnew⟩

theorem WellNamed.nodup_knownNames (h : d.WellNamed) : d.knownNames.Nodup :=
  List.nodup_append'.mpr ⟨nodup_builtinNames, h.nodup, fun _ hold hnew => h.not_builtin _ hnew hold⟩

theorem WellNamed.unmodified_of_known (h : d.WellNamed) {name : String} (hname : name ∈ d.knownNames) :
    ¬ TypeRef.EndsInModifier name := by
  rcases List.mem_append.mp hname with hname | hname
  · exact (TypeRef.isName_iff.mp (isName_builtinName name hname)).2
  · exact h.unmodified name hname

theorem name_mem_declaredNames_of_alias {a : AliasDef} (h : a ∈ d.aliases) : a.name ∈ d.declaredNames := by
  rw [declaredNames, List.append_assoc]
  exact List.mem_append_left _ (List.mem_map_of_mem h)

theorem name_mem_declaredNames_of_struct {s : StructDef} (h : s ∈ d.structs) : s.name ∈ d.declaredNames := by
  rw [declaredNames]
  exact List.mem_append_left _ (List.mem_append_right _ (List.mem_map_of_mem h))

/-- Aliases with one name are one alias. -/
theorem WellNamed.alias_eq (h : d.WellNamed) {a a' : AliasDef} (ha : a ∈ d.aliases) (ha' : a' ∈ d.aliases)
    (hname : a.name = a'.name) : a = a' := by
  have hnodup := h.nodup
  rw [declaredNames, List.append_assoc] at hnodup
  exact List.inj_on_of_nodup_map (List.nodup_append'.mp hnodup).1 ha ha' hname

theorem WellNamed.struct_eq (h : d.WellNamed) {s s' : StructDef} (hs : s ∈ d.structs) (hs' : s' ∈ d.structs)
    (hname : s.name = s'.name) : s = s' := by
  have hnodup := h.nodup
  rw [declaredNames, List.append_assoc] at hnodup
  have hstructs := (List.nodup_append'.mp (List.nodup_append'.mp hnodup).2.1).1
  exact List.inj_on_of_nodup_map hstructs hs hs' hname

/-! ### Declarations -/

theorem map_fst_declarations (d : Document) : d.declarations.map Prod.fst = d.knownNames := by
  simp [declarations, knownNames, declaredNames, map_fst_builtinLayouts, Function.comp_def]

/-- What a document says of a name, apart from bases. -/
theorem WellNamed.lookup_declarations (h : d.WellNamed) {name : String} {layout : Layout} :
    d.declarations.lookup name = some layout ↔ (name, layout) ∈ d.declarations := by
  refine lookup_eq_some_iff_mem ?_
  rw [map_fst_declarations]
  exact h.nodup_knownNames

theorem lookup_declarations_eq_none {name : String} :
    d.declarations.lookup name = none ↔ name ∉ d.knownNames := by
  rw [lookup_eq_none_iff_not_mem, map_fst_declarations]

theorem alias_mem_declarations {name : String} {t : TypeRef} :
    (name, .alias t) ∈ d.declarations ↔ ∃ a ∈ d.aliases, a.name = name ∧ TypeRef.parse a.target = t := by
  simp [declarations, builtinLayouts]

/-- The layouts of a document: its types, with the fields of all bases, and the builtin types. -/
inductive Declares (d : Document) : String → Layout → Prop
  | builtin {name : String} {type : Builtin} : (name, type) ∈ Builtin.table → Declares d name (.builtin type)
  | alias {a : AliasDef} : a ∈ d.aliases → Declares d a.name (.alias (TypeRef.parse a.target))
  | struct {s : StructDef} {fields : List Field} : s ∈ d.structs → d.flatten s = .ok fields →
      Declares d s.name (.struct fields)
  | variant {v : VariantDef} : v ∈ d.variants → Declares d v.name (.variant (v.cases.map TypeRef.parse))

theorem declares_alias_iff {name : String} {t : TypeRef} :
    d.Declares name (.alias t) ↔ ∃ a ∈ d.aliases, a.name = name ∧ TypeRef.parse a.target = t := by
  constructor
  · rintro ⟨⟩
    rename_i a ha
    exact ⟨a, ha, rfl, rfl⟩
  · rintro ⟨a, ha, rfl, rfl⟩
    exact .alias ha

end Document

namespace Catalog

variable {d : Document} {c : Catalog}

/-- The entry of a struct in a catalog. -/
def structEntry (d : Document) (s : StructDef) : Except ProtocolError (String × Layout) := do
  return (s.name, Layout.struct (← d.flatten s))

theorem structEntry_eq_ok_iff {s : StructDef} {entry : String × Layout} :
    structEntry d s = .ok entry ↔ ∃ fields, d.flatten s = .ok fields ∧ (s.name, .struct fields) = entry := by
  simp [structEntry, bind_eq_ok_iff, pure, Except.pure]

theorem ofDeclarations_eq_ok_iff : ofDeclarations d = .ok c ↔
    ∃ structs, d.structs.mapM (structEntry d) = .ok structs ∧
      c = { version := d.version
            types := builtinLayouts ++ d.aliases.map (fun a => (a.name, .alias (TypeRef.parse a.target)))
              ++ structs ++ d.variants.map (fun v => (v.name, .variant (v.cases.map TypeRef.parse)))
            tables := [] } := by
  rw [show ofDeclarations d = (do
    let structs ← d.structs.mapM (structEntry d)
    return { version := d.version
             types := builtinLayouts ++ d.aliases.map (fun a => (a.name, .alias (TypeRef.parse a.target)))
               ++ structs ++ d.variants.map (fun v => (v.name, .variant (v.cases.map TypeRef.parse)))
             tables := [] }) from rfl, bind_eq_ok_iff]
  simp [pure, Except.pure, eq_comm]

/-- A document has a catalog, checked or not, if the layouts of all structs can be told. -/
theorem exists_ofDeclarations_iff :
    (∃ c, ofDeclarations d = .ok c) ↔ ∀ s ∈ d.structs, ∃ fields, d.flatten s = .ok fields := by
  have hstructs : (∃ c, ofDeclarations d = .ok c) ↔
      ∃ structs, d.structs.mapM (structEntry d) = .ok structs := by
    simp only [ofDeclarations_eq_ok_iff]
    exact ⟨fun ⟨_, structs, h, _⟩ => ⟨structs, h⟩, fun ⟨structs, h⟩ => ⟨_, structs, h, rfl⟩⟩
  rw [hstructs, exists_mapM_eq_ok_iff]
  simp [structEntry_eq_ok_iff]

/-- A catalog has the types of a document, whatever its tables are. -/
def TypesOf (c : Catalog) (d : Document) : Prop := ∃ c', ofDeclarations d = .ok c' ∧ c.types = c'.types

theorem typesOf_ofDeclarations (h : ofDeclarations d = .ok c) : c.TypesOf d := ⟨c, h, rfl⟩

theorem TypesOf.exists_flatten (h : c.TypesOf d) : ∀ s ∈ d.structs, ∃ fields, d.flatten s = .ok fields := by
  obtain ⟨c', hc', -⟩ := h
  exact exists_ofDeclarations_iff.mp ⟨c', hc'⟩

theorem TypesOf.map_fst_types (h : c.TypesOf d) : c.types.map Prod.fst = d.knownNames := by
  obtain ⟨c', hc', htypes⟩ := h
  obtain ⟨structs, hstructs, rfl⟩ := ofDeclarations_eq_ok_iff.mp hc'
  have hnames : structs.map Prod.fst = d.structs.map (·.name) := by
    refine map_eq_of_mapM_eq_ok hstructs fun s entry hentry => ?_
    obtain ⟨fields, -, rfl⟩ := structEntry_eq_ok_iff.mp hentry
    rfl
  simp [htypes, hnames, Document.knownNames, Document.declaredNames, map_fst_builtinLayouts, Function.comp_def]

theorem TypesOf.mem_types_iff (h : c.TypesOf d) {name : String} {layout : Layout} :
    (name, layout) ∈ c.types ↔ d.Declares name layout := by
  obtain ⟨c', hc', htypes⟩ := h
  obtain ⟨structs, hstructs, rfl⟩ := ofDeclarations_eq_ok_iff.mp hc'
  simp only [htypes, List.mem_append, mem_iff_of_mapM_eq_ok hstructs, structEntry_eq_ok_iff, builtinLayouts,
    List.mem_map, Prod.mk.injEq]
  constructor
  · rintro (((⟨entry, hentry, rfl, rfl⟩ | ⟨a, ha, rfl, rfl⟩) | ⟨s, hs, fields, hfields, rfl, rfl⟩) |
      ⟨v, hv, rfl, rfl⟩)
    · exact .builtin hentry
    · exact .alias ha
    · exact .struct hs hfields
    · exact .variant hv
  · intro h
    match h with
    | .builtin hentry => exact .inl (.inl (.inl ⟨_, hentry, rfl, rfl⟩))
    | .alias ha => exact .inl (.inl (.inr ⟨_, ha, rfl, rfl⟩))
    | .struct hs hfields => exact .inl (.inr ⟨_, hs, _, hfields, rfl, rfl⟩)
    | .variant hv => exact .inr ⟨_, hv, rfl, rfl⟩

/-- A catalog has the layouts that its document declares, and no others. -/
theorem TypesOf.find?_eq_some_iff (h : c.TypesOf d) (hnames : d.WellNamed) {name : String}
    {layout : Layout} : c.find? name = some layout ↔ d.Declares name layout := by
  rw [find?, lookup_eq_some_iff_mem (by rw [h.map_fst_types]; exact hnames.nodup_knownNames), h.mem_types_iff]

theorem TypesOf.contains_iff (h : c.TypesOf d) {name : String} : c.contains name ↔ name ∈ d.knownNames := by
  rw [contains, find?, ← h.map_fst_types, Option.isSome_iff_ne_none, Ne, lookup_eq_none_iff_not_mem, not_not]

end Catalog

end Schema

end StateHistory
