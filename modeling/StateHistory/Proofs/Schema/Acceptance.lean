import StateHistory.Proofs.Schema.Closure

/-! # Which documents are accepted

`Document.WellFormed` lists what is asked of a document, in terms of its names, bases, references and
aliases alone. A document has a catalog exactly if it is well formed (`ofDocument_iff_wellFormed`). Its
tables play no part in that; of those with one name, the last one counts whose rows have a known type
(`Document.RowType`). -/

namespace StateHistory.Schema

namespace Document

/-- What is asked of a document. -/
structure WellFormed (d : Document) : Prop extends WellNamed d where
  version : supportedVersions.toList <+: d.version.toList
  inherits : ∀ s ∈ d.structs, ∃ above, d.Inherits s above
  knows : ∀ type ∈ d.references, d.Knows type
  settles : ∀ a ∈ d.aliases, ∃ t, d.Settles maxChain a.name t

/-- The last table of a name whose rows have a known type, and that type. -/
def RowType (d : Document) (name type : String) : Prop :=
  ∃ before table after, d.tables = before ++ table :: after ∧ table.name = name ∧ table.type = type ∧
    d.Knows type ∧ ∀ later ∈ after, later.name = name → ¬ d.Knows later.type

theorem checkVersion_eq_ok_iff {version : String} :
    checkVersion version = .ok () ↔ supportedVersions.toList <+: version.toList := by
  rw [checkVersion, ← List.isPrefixOf_iff_prefix]
  split <;> simp_all

/-! ### Tables -/

/-- Bases have nothing to do with tables. -/
theorem bases_of_tables (d : Document) (tables : List TableDef) (owner : String) (room : Nat)
    (seen : List String) (s : StructDef) :
    { d with tables := tables }.bases owner room seen s = d.bases owner room seen s := by
  induction room generalizing seen s with
  | zero => rw [bases.eq_def, bases.eq_def]; rfl
  | succ room ih =>
      rw [bases.eq_def, bases.eq_def]
      simp only [ih]
      rfl

end Document

namespace Catalog

variable {d : Document} {c : Catalog}

theorem ofDeclarations_of_tables (d : Document) (tables : List TableDef) :
    ofDeclarations { d with tables := tables } = ofDeclarations d := by
  simp only [ofDeclarations, Document.flatten, Document.bases_of_tables]

/-- What a catalog knows of tables: an entry for each table whose rows have a known type, the last one first. -/
def tablesOf (c : Catalog) (d : Document) : List (String × TypeRef) :=
  ((d.tables.filter fun t => c.contains (TypeRef.parse t.type).baseName).map fun t =>
    (t.name, TypeRef.parse t.type)).reverse

theorem ofDocument_eq_ok_iff : ofDocument d = .ok c ↔
    supportedVersions.toList <+: d.version.toList ∧ d.WellNamed ∧
      ∃ c', ofDeclarations d = .ok c' ∧ c'.check = .ok () ∧ c = { c' with tables := c'.tablesOf d } := by
  have hshape : ofDocument d = (do
      checkVersion d.version
      Document.checkNames builtinNames d.declaredNames
      let c' ← ofDeclarations d
      c'.check
      return { c' with tables := c'.tablesOf d }) := rfl
  rw [hshape, ← Document.checkVersion_eq_ok_iff, Document.wellNamed_iff]
  simp only [bind_eq_ok_iff, pure, Except.pure, Except.ok.injEq]
  constructor
  · rintro ⟨_, hversion, _, hnames, c', hc', _, hcheck, rfl⟩
    exact ⟨hversion, hnames, c', hc', hcheck, rfl⟩
  · rintro ⟨hversion, hnames, c', hc', hcheck, rfl⟩
    exact ⟨(), hversion, (), hnames, c', hc', (), hcheck, rfl⟩

theorem exists_ofDocument_iff : (∃ c, ofDocument d = .ok c) ↔
    checkVersion d.version = .ok () ∧ Document.checkNames builtinNames d.declaredNames = .ok () ∧
      ∃ c', ofDeclarations d = .ok c' ∧ c'.check = .ok () := by
  simp only [ofDocument_eq_ok_iff, ← Document.checkVersion_eq_ok_iff, Document.wellNamed_iff]
  constructor
  · rintro ⟨_, hversion, hnames, c', hc', hcheck, -⟩
    exact ⟨hversion, hnames, c', hc', hcheck⟩
  · rintro ⟨hversion, hnames, c', hc', hcheck⟩
    exact ⟨_, hversion, hnames, c', hc', hcheck, rfl⟩

theorem lookup_map {α : Type} (f : α → String × TypeRef) (xs : List α) (key : String) :
    (xs.map f).lookup key = (xs.find? fun x => key == (f x).1).map fun x => (f x).2 := by
  induction xs with
  | nil => rfl
  | cons x xs ih =>
      rw [List.map_cons, List.lookup_cons, List.find?_cons, ih]
      split <;> simp_all

/-- The entry of a table's name is that of the last table with this name whose rows have a known type. -/
theorem TypesOf.lookup_tablesOf (hc : c.TypesOf d) (hnames : d.WellNamed) {name type : String} :
    ((c.tablesOf d).lookup name).map TypeRef.render = some type ↔ d.RowType name type := by
  have hknows : ∀ t : TableDef, c.contains (TypeRef.parse t.type).baseName ↔ d.Knows t.type := fun t => by
    rw [hc.contains_iff, hnames.knows_iff]
  have hlater : ∀ t : TableDef, (!decide (c.contains (TypeRef.parse t.type).baseName = true ∧
      (name == t.name) = true)) = true ↔ (t.name = name → ¬ d.Knows t.type) := by
    intro t
    rw [Bool.not_eq_true', decide_eq_false_iff_not, hknows, beq_iff_eq, not_and', eq_comm]
  rw [tablesOf, ← List.map_reverse, ← List.filter_reverse, lookup_map, List.find?_filter]
  simp only [Option.map_map, Option.map_eq_some_iff, Function.comp, TypeRef.render_parse,
    List.find?_eq_some_iff_append, hlater, hknows, beq_iff_eq, decide_eq_true_eq]
  constructor
  · rintro ⟨table, ⟨⟨hknown, hname⟩, after, before, htables, hafter⟩, rfl⟩
    refine ⟨before.reverse, table, after.reverse, ?_, hname.symm, rfl, hknown, ?_⟩
    · rw [← List.reverse_reverse d.tables, htables]
      simp
    · exact fun later hmem => hafter later (List.mem_reverse.mp hmem)
  · rintro ⟨before, table, after, htables, rfl, rfl, hknown, hafter⟩
    refine ⟨table, ⟨⟨hknown, rfl⟩, after.reverse, before.reverse, ?_, ?_⟩, rfl⟩
    · rw [htables]
      simp
    · exact fun later hmem => hafter later (List.mem_reverse.mp hmem)

theorem typesOf_ofDocument (h : ofDocument d = .ok c) : c.TypesOf d := by
  obtain ⟨-, -, c', hc', -, rfl⟩ := ofDocument_eq_ok_iff.mp h
  exact ⟨c', hc', rfl⟩

/-- Whatever has a catalog is well formed. -/
theorem wellFormed_of_ofDocument (h : ofDocument d = .ok c) : d.WellFormed := by
  obtain ⟨hversion, hnames, c', hc', hcheck, -⟩ := ofDocument_eq_ok_iff.mp h
  have htypes := typesOf_ofDeclarations hc'
  obtain ⟨hknows, hsettles⟩ := (htypes.check_iff hnames).mp hcheck
  refine ⟨hnames, hversion, fun s hs => ?_, hknows, hsettles⟩
  obtain ⟨fields, hfields⟩ := htypes.exists_flatten s hs
  obtain ⟨above, hinherits, -⟩ := hnames.flatten_eq_ok_iff.mp hfields
  exact ⟨above, hinherits⟩

/-- In the catalog of a document, a known name stands for where it settles. -/
theorem resolve_eq_ok_iff (h : ofDocument d = .ok c) {name : String} (hname : d.Knows name) {t : TypeRef} :
    c.resolve name = .ok t ↔ ∃ u, d.Settles maxChain name u ∧ TypeRef.parse u = t := by
  have hformed := wellFormed_of_ofDocument h
  have htargets : ∀ a ∈ d.aliases, d.Knows a.target := fun a ha =>
    hformed.knows _ (Document.target_mem_references ha)
  exact (typesOf_ofDocument h).resolveFrom_eq_ok_iff hformed.toWellNamed htargets hname

/-- Whatever is well formed has a catalog. -/
theorem exists_ofDocument (h : d.WellFormed) : ∃ c, ofDocument d = .ok c := by
  have hnames := h.toWellNamed
  obtain ⟨c', hc'⟩ : ∃ c', ofDeclarations d = .ok c' := by
    refine exists_ofDeclarations_iff.mpr fun s hs => ?_
    obtain ⟨above, hinherits⟩ := h.inherits s hs
    exact ⟨_, hnames.flatten_eq_ok_iff.mpr ⟨above, hinherits, rfl⟩⟩
  have hcheck := ((typesOf_ofDeclarations hc').check_iff hnames).mpr ⟨h.knows, h.settles⟩
  exact ⟨_, ofDocument_eq_ok_iff.mpr ⟨h.version, hnames, c', hc', hcheck, rfl⟩⟩

/-- A catalog is made of every well-formed document and of no other one, and tables play no part in that.
The rows of a table have the type that the last table of its name gives, of those with a known type. -/
theorem ofDocument_iff_wellFormed (d : Document) :
    ((∃ c, ofDocument d = .ok c) ↔ d.WellFormed) ∧
      (∀ tables, (∃ c, ofDocument { d with tables := tables } = .ok c) ↔ ∃ c, ofDocument d = .ok c) ∧
      ∀ c, ofDocument d = .ok c → ∀ name type,
        (c.table? name).map TypeRef.render = some type ↔ d.RowType name type := by
  refine ⟨⟨?_, exists_ofDocument⟩, fun tables => ?_, ?_⟩
  · rintro ⟨c, hc⟩
    exact wellFormed_of_ofDocument hc
  · rw [exists_ofDocument_iff, exists_ofDocument_iff, ofDeclarations_of_tables]
    exact Iff.rfl
  · intro c hc name type
    obtain ⟨-, hnames, c', hc', -, rfl⟩ := ofDocument_eq_ok_iff.mp hc
    exact (typesOf_ofDeclarations hc').lookup_tablesOf hnames

/-- A document with an alias for a base, and with two tables of one name. -/
def blocksDocument : Document where
  version := "eosio::abi/1.1"
  aliases := [⟨"height", "uint32"⟩, ⟨"header", "block_header"⟩]
  structs := [⟨"block", "header", [⟨"parents", "checksum256[]"⟩]⟩, ⟨"block_header", "", [⟨"number", "height"⟩]⟩]
  variants := [⟨"row", ["block", "block?"]⟩]
  tables := [⟨"blocks", "row", []⟩, ⟨"blocks", "undeclared", []⟩]

theorem exists_ofDocument_blocksDocument : ∃ c, ofDocument blocksDocument = .ok c := by
  have haccepted : (ofDocument blocksDocument).toOption.map (fun _ => ()) = some () := by decide +kernel
  obtain ⟨c, hc, -⟩ := exists_ok_of_toOption_map haccepted
  exact ⟨c, hc⟩

theorem wellFormed_blocksDocument :
    blocksDocument.WellFormed ∧ blocksDocument.RowType "blocks" "row" := by
  have haccepted : ((ofDocument blocksDocument).toOption.map fun c =>
      (c.table? "blocks").map TypeRef.render) = some (some "row") := by decide +kernel
  obtain ⟨c, hc, hrows⟩ := exists_ok_of_toOption_map haccepted
  obtain ⟨haccepts, -, htables⟩ := ofDocument_iff_wellFormed blocksDocument
  exact ⟨haccepts.mp ⟨c, hc⟩, (htables c hc "blocks" "row").mp hrows⟩

end Catalog

end StateHistory.Schema
