import StateHistory.Proofs.Schema.Traversal

/-! # What decoding by schema can fail with

The catalog of a document is closed: whatever a layout refers to has a layout, too (`Catalog.Closed`). A
reader that starts at a known type therefore only comes to known types, and can fail for nothing but what
is wrong with its input (`forward_readWithin`). For the same reason a known name always stands for
something (`Catalog.Final`). -/

namespace StateHistory.Schema

namespace Catalog

variable {d : Document} {c : Catalog}

/-- Every type that a layout refers to has a layout. -/
def Closed (c : Catalog) : Prop :=
  ∀ name layout, c.find? name = some layout → ∀ t ∈ layout.references, c.contains t.baseName

/-- What a name can stand for in the end: a known type that is no alias, or a type with a modifier. -/
inductive Final (c : Catalog) : TypeRef → Prop
  | plain {name : String} {layout : Layout} : c.find? name = some layout →
      (∀ target, layout ≠ .alias target) → Final c (.named name)
  | optional (inner : TypeRef) : Final c (.optional inner)
  | array (inner : TypeRef) : Final c (.array inner)
  | extension (inner : TypeRef) : Final c (.extension inner)

theorem closed_of_ofDocument (h : ofDocument d = .ok c) : c.Closed := by
  have hwell := wellFormed_of_ofDocument h
  have htypes := typesOf_ofDocument h
  intro name layout hfind
  have hdeclares := (htypes.find?_eq_some_iff hwell.toWellNamed).mp hfind
  exact (htypes.contains_references_iff hwell.toWellNamed).mpr hwell.knows name layout hdeclares

/-- Under a closed catalog known types refer to known types. -/
theorem Closed.contains_of_refersTo (hc : c.Closed) {t u : TypeRef} (ht : c.contains t.baseName)
    (hu : c.RefersTo t u) : c.contains u.baseName := by
  cases hu with
  | optional => exact ht
  | array => exact ht
  | extension => exact ht
  | named hfind hmem => exact hc _ _ hfind _ hmem

/-- Under a closed catalog a known type is read forward, and whatever goes wrong is wrong with the input. -/
theorem forward_readWithin (hc : c.Closed) (levels : Nat) {t : TypeRef} (ht : c.contains t.baseName) :
    (c.readWithin levels t).Forward ProtocolError.Arises := by
  refine Decoder.compositional_forward.readWithin (Q := fun t => c.contains t.baseName) hc.contains_of_refersTo
    (fun _ _ => Decoder.forward_atEnd) ?_ levels ht
  intro name hname hfind
  rw [TypeRef.baseName, contains, hfind] at hname
  cases hname

theorem final_of_resolveFrom {origin : String} {room : Nat} {s t : TypeRef}
    (h : c.resolveFrom origin room s = .ok t) : c.Final t := by
  induction room generalizing s with
  | zero => cases h
  | succ room ih =>
      cases s with
      | optional inner =>
          obtain rfl := Except.ok.inj h
          exact .optional inner
      | array inner =>
          obtain rfl := Except.ok.inj h
          exact .array inner
      | extension inner =>
          obtain rfl := Except.ok.inj h
          exact .extension inner
      | named name =>
          obtain ⟨layout, hget, hrest⟩ := bind_eq_ok_iff.mp h
          have hfind := get_eq_ok_iff.mp hget
          cases layout with
          | «alias» target => exact ih hrest
          | builtin type =>
              obtain rfl := Except.ok.inj hrest
              exact .plain hfind nofun
          | struct fields =>
              obtain rfl := Except.ok.inj hrest
              exact .plain hfind nofun
          | variant cases =>
              obtain rfl := Except.ok.inj hrest
              exact .plain hfind nofun

theorem exists_resolve (h : ofDocument d = .ok c) {name : String} (hname : c.contains name) :
    ∃ t, c.resolve name = .ok t := by
  have hknown : d.Knows name := ⟨name, (typesOf_ofDocument h).contains_iff.mp hname, .plain⟩
  have hsettles : ∃ u, d.Settles maxChain name u := by
    by_cases halias : ∃ a ∈ d.aliases, a.name = name
    · obtain ⟨a, ha, rfl⟩ := halias
      exact (wellFormed_of_ofDocument h).settles a ha
    · exact ⟨name, (Document.settles_of_plain fun a ha hplain => halias ⟨a, ha, hplain⟩).mpr rfl⟩
  obtain ⟨u, hu⟩ := hsettles
  exact ⟨_, (resolve_eq_ok_iff h hknown).mpr ⟨u, hu, rfl⟩⟩

/-- Under the catalog of a document, what a known name and any modifiers spell is read as a value or the
input is at fault, and every known name stands for a known type that is no alias or for a type with a
modifier. -/
theorem ofDocument_safe (h : ofDocument d = .ok c) :
    (∀ name type input, c.contains name → TypeRef.Modified name type →
      (∃ v rest, (c.read (TypeRef.parse type)).outcome input = (.ok v, rest)) ∨
        ∃ e rest, (c.read (TypeRef.parse type)).outcome input = (.error e, rest) ∧ e.Arises rest) ∧
      ∀ name, c.contains name → ∃ t, c.resolve name = .ok t ∧ c.Final t := by
  refine ⟨fun name type input hname hmodified => ?_, fun name hname => ?_⟩
  · have hwell := wellFormed_of_ofDocument h
    have hplain := hwell.unmodified_of_known ((typesOf_ofDocument h).contains_iff.mp hname)
    have hbase := TypeRef.baseName_parse_eq_iff.mpr ⟨hmodified, hplain⟩
    have hforward := forward_readWithin (closed_of_ofDocument h) maxLevels (t := TypeRef.parse type)
      (by rwa [hbase])
    rw [Decoder.outcome, read]
    cases hrun : (c.readWithin maxLevels (TypeRef.parse type)).run input with
    | ok v rest => exact .inl ⟨v, rest, rfl⟩
    | error e rest => exact .inr ⟨e, rest, rfl, (hforward.of_error hrun).2⟩
  · obtain ⟨t, ht⟩ := exists_resolve h hname
    exact ⟨t, ht, final_of_resolveFrom ht⟩

theorem safe_blocksDocument : ∃ c, ofDocument blocksDocument = .ok c ∧
    (∀ input, (∃ v rest, (c.read (TypeRef.parse "row[]")).outcome input = (.ok v, rest)) ∨
      ∃ e rest, (c.read (TypeRef.parse "row[]")).outcome input = (.error e, rest) ∧ e.Arises rest) ∧
    ∃ t, c.resolve "header" = .ok t ∧ c.Final t := by
  have haccepted : ((ofDocument blocksDocument).toOption.map fun c =>
      (c.contains "row", c.contains "header")) = some (true, true) := by decide +kernel
  obtain ⟨c, hc, hknown⟩ := exists_ok_of_toOption_map haccepted
  obtain ⟨hrow, hheader⟩ := Prod.mk.inj hknown
  obtain ⟨hread, hresolve⟩ := ofDocument_safe hc
  have hmodified : TypeRef.Modified "row" "row[]" := .array .plain
  exact ⟨c, hc, fun input => hread "row" "row[]" input hrow hmodified, hresolve "header" hheader⟩

end Catalog

end StateHistory.Schema
