import Mathlib.Logic.Relation
import StateHistory.Proofs.Schema.Variant

/-! # The layouts of structs

The layout of a struct is put together from the declarations of its bases, the furthest first
(`StructDef.fieldsWith`). It is also what one gets from layouts alone: the layout of the struct that its base
stands for, and its own fields behind it (`Catalog.layout_of_struct`). So the layout of every ancestor stands
whole at the front. -/

namespace StateHistory.Schema

/-- The fields of a struct with the given bases, those of the furthest base first. -/
def StructDef.fieldsWith (s : StructDef) (above : List StructDef) : List Field :=
  (above.reverse ++ [s]).flatMap StructDef.ownFields

theorem StructDef.fieldsWith_nil (s : StructDef) : s.fieldsWith [] = s.ownFields := by
  simp [fieldsWith]

theorem StructDef.fieldsWith_cons (s b : StructDef) (above : List StructDef) :
    s.fieldsWith (b :: above) = b.fieldsWith above ++ s.ownFields := by
  simp [fieldsWith]

namespace Catalog

variable {d : Document} {c : Catalog}

theorem find?_of_inherits (h : ofDocument d = .ok c) {s : StructDef} {above : List StructDef}
    (hs : s ∈ d.structs) (hinherits : d.Inherits s above) :
    c.find? s.name = some (.struct (s.fieldsWith above)) := by
  have hnames := (wellFormed_of_ofDocument h).toWellNamed
  have hfields : d.flatten s = .ok (s.fieldsWith above) := hnames.flatten_eq_ok_iff.mpr ⟨above, hinherits, rfl⟩
  exact ((typesOf_ofDocument h).find?_eq_some_iff hnames).mpr (.struct hs hfields)

theorem exists_find?_struct (h : ofDocument d = .ok c) {s : StructDef} (hs : s ∈ d.structs) :
    ∃ above, d.Inherits s above ∧ c.find? s.name = some (.struct (s.fieldsWith above)) := by
  obtain ⟨above, hinherits⟩ := (wellFormed_of_ofDocument h).inherits s hs
  exact ⟨above, hinherits, find?_of_inherits h hs hinherits⟩

/-- The fields of a base stand in front of a struct's own ones. -/
theorem exists_find?_basedOn (h : ofDocument d = .ok c) {s b : StructDef} (hs : s ∈ d.structs)
    (hb : d.BasedOn s b) : ∃ fields, c.find? b.name = some (.struct fields) ∧
      c.find? s.name = some (.struct (fields ++ s.ownFields)) := by
  obtain ⟨above, hinherits, hlayout⟩ := exists_find?_struct h hs
  cases above with
  | nil =>
      cases hinherits.ancestry with
      | root hroot => exact absurd hroot hb.has_base
  | cons b' above =>
      obtain ⟨hb', hbase⟩ := hinherits.of_cons
      obtain rfl := (wellFormed_of_ofDocument h).basedOn_unique hb hb'
      rw [StructDef.fieldsWith_cons] at hlayout
      exact ⟨b.fieldsWith above, find?_of_inherits h hb.declared hbase, hlayout⟩

/-- From a struct up to any of its ancestors, every layout begins with the next one. -/
theorem exists_find?_ancestor (h : ofDocument d = .ok c) {s a : StructDef} (hs : s ∈ d.structs)
    (ha : Relation.TransGen d.BasedOn s a) : ∃ fields layout, c.find? a.name = some (.struct fields) ∧
      c.find? s.name = some (.struct layout) ∧ fields <+: layout := by
  induction ha using Relation.TransGen.head_induction_on with
  | single hb =>
      obtain ⟨fields, hbase, hlayout⟩ := exists_find?_basedOn h hs hb
      exact ⟨fields, _, hbase, hlayout, List.prefix_append ..⟩
  | head hb _ ih =>
      obtain ⟨fields, hbase, hlayout⟩ := exists_find?_basedOn h hs hb
      obtain ⟨first, fields', hancestor, hbase', hprefix⟩ := ih hb.declared
      obtain rfl : fields' = fields := Layout.struct.inj (Option.some.inj (hbase'.symm.trans hbase))
      exact ⟨first, _, hancestor, hlayout, hprefix.trans (List.prefix_append ..)⟩

/-- A struct without a base is laid out as it declares its fields. Every other one is laid out as the struct is
that its base stands for, and then as it declares its own fields. So a layout begins with the layouts of all
structs above. -/
theorem layout_of_struct (h : ofDocument d = .ok c) {s : StructDef} (hs : s ∈ d.structs) :
    (s.base = "" → c.find? s.name = some (.struct s.ownFields)) ∧
      (s.base ≠ "" → ∃ b fields, d.BasedOn s b ∧ c.resolve s.base = .ok (.named b.name) ∧
        c.find? b.name = some (.struct fields) ∧ c.find? s.name = some (.struct (fields ++ s.ownFields))) ∧
      ∀ a, Relation.TransGen d.BasedOn s a → ∃ fields layout, c.find? a.name = some (.struct fields) ∧
        c.find? s.name = some (.struct layout) ∧ fields <+: layout := by
  obtain ⟨above, hinherits, hlayout⟩ := exists_find?_struct h hs
  refine ⟨fun hroot => ?_, fun hbase => ?_, fun a ha => exists_find?_ancestor h hs ha⟩
  · cases hinherits.ancestry with
    | root => rwa [StructDef.fieldsWith_nil] at hlayout
    | child hb _ => exact absurd hroot hb.has_base
  · cases hinherits.ancestry with
    | root hroot => exact absurd hroot hbase
    | @child _ b _ hb _ =>
        obtain ⟨fields, hfields, hlayout⟩ := exists_find?_basedOn h hs hb
        have hresolve := resolve_of_settles h (Document.name_mem_declaredNames_of_struct hb.declared) hb.settles
        exact ⟨b, fields, hb, hresolve, hfields, hlayout⟩

/-- The base of a block goes by another name, and is declared after it. -/
theorem layout_blocksDocument : ∃ c b fields, ofDocument blocksDocument = .ok c ∧
    c.resolve "header" = .ok (.named b) ∧ c.find? b = some (.struct fields) ∧
      c.find? "block" = some (.struct (fields ++ [⟨"parents", .array (.named "checksum256")⟩])) := by
  obtain ⟨c, hc⟩ := exists_ofDocument_blocksDocument
  obtain ⟨-, hbased, -⟩ := layout_of_struct hc (s := ⟨"block", "header", [⟨"parents", "checksum256[]"⟩]⟩) (.head _)
  obtain ⟨b, fields, -, hresolve, hbase, hlayout⟩ := hbased (by decide)
  rw [show StructDef.ownFields _ = [⟨"parents", .array (.named "checksum256")⟩] by decide +kernel] at hlayout
  exact ⟨c, b.name, fields, hc, hresolve, hbase, hlayout⟩

end Catalog

end StateHistory.Schema
