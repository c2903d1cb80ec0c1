import StateHistory.Proofs.Schema.Acceptance
import StateHistory.Proofs.Schema.Equivalence

/-! # The order of declarations

A document may declare its aliases, structs and variants in any order (`Document.Rearranges`). Nothing that is
asked of a document depends on it: where names settle, what structs inherit, and which layouts there are, all go
by name. So a document is accepted in one order if it is in another one, and its catalogs answer alike
(`Catalog.ofDocument_of_rearranges`). -/

namespace StateHistory.Schema

namespace Document

/-- The same declarations, with aliases, structs and variants in another order. Fields, cases and tables are in
place. -/
structure Rearranges (d d' : Document) : Prop where
  version : d.version = d'.version
  aliases : d.aliases.Perm d'.aliases
  structs : d.structs.Perm d'.structs
  variants : d.variants.Perm d'.variants
  tables : d.tables = d'.tables

variable {d d' : Document}

namespace Rearranges

theorem symm (h : d.Rearranges d') : d'.Rearranges d :=
  ⟨h.version.symm, h.aliases.symm, h.structs.symm, h.variants.symm, h.tables.symm⟩

/-! ### Names -/

theorem declaredNames (h : d.Rearranges d') : d.declaredNames.Perm d'.declaredNames :=
  ((h.aliases.map _).append (h.structs.map _)).append (h.variants.map _)

theorem knownNames (h : d.Rearranges d') : d.knownNames.Perm d'.knownNames :=
  h.declaredNames.append_left builtinNames

theorem wellNamed (h : d.Rearranges d') (hnames : d.WellNamed) : d'.WellNamed where
  ne_empty := fun name hname => hnames.ne_empty name (h.declaredNames.mem_iff.mpr hname)
  unmodified := fun name hname => hnames.unmodified name (h.declaredNames.mem_iff.mpr hname)
  nodup := h.declaredNames.nodup hnames.nodup
  not_builtin := fun name hname => hnames.not_builtin name (h.declaredNames.mem_iff.mpr hname)

theorem knows (h : d.Rearranges d') {type : String} (hknown : d.Knows type) : d'.Knows type := by
  obtain ⟨name, hname, hmodified⟩ := hknown
  exact ⟨name, h.knownNames.mem_iff.mp hname, hmodified⟩

theorem references (h : d.Rearranges d') : d.references.Perm d'.references :=
  ((h.aliases.map _).append (h.structs.flatMap_right _)).append (h.variants.flatMap_right _)

/-! ### Aliases and bases -/

theorem renames (h : d.Rearranges d') {n : Nat} {s t : String} (hpath : d.Renames n s t) : d'.Renames n s t := by
  induction hpath with
  | refl => exact .refl
  | step ha _ ih => exact .step (h.aliases.mem_iff.mp ha) ih

theorem settles (h : d.Rearranges d') {room : Nat} {s t : String} (hsettles : d.Settles room s t) :
    d'.Settles room s t := by
  obtain ⟨⟨n, hn, hpath⟩, hplain⟩ := hsettles
  exact ⟨⟨n, hn, h.renames hpath⟩, fun a ha => hplain a (h.aliases.mem_iff.mpr ha)⟩

theorem basedOn (h : d.Rearranges d') {s b : StructDef} (hb : d.BasedOn s b) : d'.BasedOn s b :=
  ⟨hb.has_base, h.structs.mem_iff.mp hb.declared, h.settles hb.settles⟩

theorem ancestry (h : d.Rearranges d') {s : StructDef} {above : List StructDef} (habove : d.Ancestry s above) :
    d'.Ancestry s above := by
  induction habove with
  | root hroot => exact .root hroot
  | child hb _ ih => exact .child (h.basedOn hb) ih

theorem inherits (h : d.Rearranges d') {s : StructDef} {above : List StructDef} (habove : d.Inherits s above) :
    d'.Inherits s above :=
  ⟨h.ancestry habove.ancestry, habove.nodup, habove.length_le⟩

theorem flatten (h : d.Rearranges d') (hnames : d.WellNamed) {s : StructDef} {fields : List Field}
    (hfields : d.flatten s = .ok fields) : d'.flatten s = .ok fields := by
  obtain ⟨above, habove, rfl⟩ := hnames.flatten_eq_ok_iff.mp hfields
  exact (h.wellNamed hnames).flatten_eq_ok_iff.mpr ⟨above, h.inherits habove, rfl⟩

/-! ### Documents -/

theorem wellFormed (h : d.Rearranges d') (hformed : d.WellFormed) : d'.WellFormed where
  toWellNamed := h.wellNamed hformed.toWellNamed
  version := h.version ▸ hformed.version
  inherits := by
    intro s hs
    obtain ⟨above, habove⟩ := hformed.inherits s (h.structs.mem_iff.mpr hs)
    exact ⟨above, h.inherits habove⟩
  knows := fun type htype => h.knows (hformed.knows type (h.references.mem_iff.mpr htype))
  settles := by
    intro a ha
    obtain ⟨t, ht⟩ := hformed.settles a (h.aliases.mem_iff.mpr ha)
    exact ⟨t, h.settles ht⟩

theorem declares (h : d.Rearranges d') (hnames : d.WellNamed) {name : String} {layout : Layout}
    (hlayout : d.Declares name layout) : d'.Declares name layout := by
  cases hlayout with
  | builtin hentry => exact .builtin hentry
  | «alias» ha => exact .alias (h.aliases.mem_iff.mp ha)
  | struct hs hfields => exact .struct (h.structs.mem_iff.mp hs) (h.flatten hnames hfields)
  | variant hv => exact .variant (h.variants.mem_iff.mp hv)

theorem declares_iff (h : d.Rearranges d') (hnames : d.WellNamed) {name : String} {layout : Layout} :
    d.Declares name layout ↔ d'.Declares name layout :=
  ⟨h.declares hnames, h.symm.declares (h.wellNamed hnames)⟩

end Rearranges

end Document

namespace Catalog

variable {d d' : Document} {c c' : Catalog}

theorem version_of_ofDocument (h : ofDocument d = .ok c) : c.version = d.version := by
  obtain ⟨-, -, c', hc', -, rfl⟩ := ofDocument_eq_ok_iff.mp h
  obtain ⟨structs, -, rfl⟩ := ofDeclarations_eq_ok_iff.mp hc'
  rfl

theorem tables_of_ofDocument (h : ofDocument d = .ok c) : c.tables = c.tablesOf d := by
  obtain ⟨-, -, c', -, -, rfl⟩ := ofDocument_eq_ok_iff.mp h
  rfl

theorem TypesOf.nodup_types (h : c.TypesOf d) (hnames : d.WellNamed) : c.types.Nodup := by
  refine List.Nodup.of_map Prod.fst ?_
  rw [h.map_fst_types]
  exact hnames.nodup_knownNames

/-- The catalogs of a document in two orders have the same entries. -/
theorem types_perm (h : d.Rearranges d') (hc : ofDocument d = .ok c) (hc' : ofDocument d' = .ok c') :
    c.types.Perm c'.types := by
  have hnames := (wellFormed_of_ofDocument hc).toWellNamed
  have htypes := typesOf_ofDocument hc
  have htypes' := typesOf_ofDocument hc'
  refine (List.perm_ext_iff_of_nodup (htypes.nodup_types hnames) (htypes'.nodup_types (h.wellNamed hnames))).mpr ?_
  rintro ⟨name, layout⟩
  rw [htypes.mem_types_iff, htypes'.mem_types_iff, h.declares_iff hnames]

theorem equiv_of_rearranges (h : d.Rearranges d') (hc : ofDocument d = .ok c) (hc' : ofDocument d' = .ok c') :
    c.Equiv c' := by
  have hnames := (wellFormed_of_ofDocument hc).toWellNamed
  have hfind : c.find? = c'.find? := by
    funext name
    refine Option.ext fun layout => ?_
    rw [(typesOf_ofDocument hc).find?_eq_some_iff hnames,
      (typesOf_ofDocument hc').find?_eq_some_iff (h.wellNamed hnames), h.declares_iff hnames]
  have hcontains : c.contains = c'.contains := by
    funext name
    rw [contains, contains, hfind]
  refine ⟨?_, hfind, ?_⟩
  · rw [version_of_ofDocument hc, version_of_ofDocument hc', h.version]
  · rw [tables_of_ofDocument hc, tables_of_ofDocument hc', tablesOf, tablesOf, hcontains, h.tables]

/-- The order of its declarations decides neither whether a document is accepted nor anything about its catalog
but the order of the entries: every look-up and every reader is the same. -/
theorem ofDocument_of_rearranges (h : d.Rearranges d') :
    ((∃ c, ofDocument d = .ok c) ↔ ∃ c', ofDocument d' = .ok c') ∧
      ∀ c c', ofDocument d = .ok c → ofDocument d' = .ok c' →
        (c.version = c'.version ∧ c.types.Perm c'.types ∧ c.tables = c'.tables) ∧
        (c.find? = c'.find? ∧ c.contains = c'.contains ∧ c.resolve = c'.resolve ∧ c.variantCase = c'.variantCase ∧
          c.variantTag = c'.variantTag ∧ c.table? = c'.table? ∧ c.droppedTables d = c'.droppedTables d') ∧
        c.read = c'.read ∧ c.toJson = c'.toJson ∧ Frame.decodeResult c = Frame.decodeResult c' ∧
          Frame.encodeRequest (some c) = Frame.encodeRequest (some c') := by
  refine ⟨⟨?_, ?_⟩, ?_⟩
  · rintro ⟨c, hc⟩
    exact exists_ofDocument (h.wellFormed (wellFormed_of_ofDocument hc))
  · rintro ⟨c', hc'⟩
    exact exists_ofDocument (h.symm.wellFormed (wellFormed_of_ofDocument hc'))
  · intro c c' hc hc'
    have hequiv : c.Equiv c' := equiv_of_rearranges h hc hc'
    have hdropped : c.droppedTables d = c'.droppedTables d' := by
      rw [hequiv.droppedTables, droppedTables, droppedTables, h.tables]
    exact ⟨⟨hequiv.version, types_perm h hc hc', hequiv.tables⟩,
      ⟨hequiv.find?, hequiv.contains, hequiv.resolve, hequiv.variantCase, hequiv.variantTag, hequiv.table?, hdropped⟩,
      hequiv.read, hequiv.toJson, Frame.decodeResult_of_equiv hequiv, Frame.encodeRequest_of_equiv hequiv⟩

/-- The block, its base and the alias between them can be declared the other way round. -/
theorem rearranged_blocksDocument : ∃ c c', ofDocument blocksDocument = .ok c ∧
    ofDocument { blocksDocument with
      aliases := blocksDocument.aliases.reverse, structs := blocksDocument.structs.reverse } = .ok c' ∧
    c.types.Perm c'.types ∧ c.read = c'.read := by
  have hrearranges : blocksDocument.Rearranges { blocksDocument with
      aliases := blocksDocument.aliases.reverse, structs := blocksDocument.structs.reverse } :=
    ⟨rfl, (List.reverse_perm _).symm, (List.reverse_perm _).symm, .refl _, rfl⟩
  obtain ⟨c, hc⟩ := exists_ofDocument_blocksDocument
  obtain ⟨haccepts, hsame⟩ := ofDocument_of_rearranges hrearranges
  obtain ⟨c', hc'⟩ := haccepts.mp ⟨c, hc⟩
  obtain ⟨⟨-, htypes, -⟩, -, hread, -⟩ := hsame c c' hc hc'
  exact ⟨c, c', hc, hc', htypes, hread⟩

end Catalog

end StateHistory.Schema
