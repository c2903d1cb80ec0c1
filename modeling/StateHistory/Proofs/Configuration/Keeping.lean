import StateHistory.Proofs.Configuration.Merging

/-! # What a section keeps

What a layer gives a section can be lost: where a member is changed after an item or the whole of the section, only the
members from there on are left. `Section.Keeps` says that this does not happen, in whatever order each layer lists its
entries. Then a setting that is given something is not left empty (`Section.Keeps.filled`). -/

namespace StateHistory.Configuration

open Value

variable {part : Section} {t : Setting} {name key : String} {v w sec : Value} {entries es : List (String × Value)}
  {origin : Option String} {c : Change} {cs : List Change} {layer layer' : Layer} {layers layers' : List Layer}

/-! ### Changes that are kept -/

/-- A layer that puts values into members of a section only. -/
def Layer.TabularIn (layer : Layer) (part : Section) : Prop := ∀ c ∈ part.changes layer, c.OfMember

/-- A layer that puts values into members of sections only. -/
def Layer.Tabular (layer : Layer) : Prop := ∀ part : Section, layer.TabularIn part

/-- A layer that puts no value into a member of a section. -/
def Layer.WholeIn (layer : Layer) (part : Section) : Prop := ∀ c ∈ part.changes layer, ¬ c.OfMember

/-- Layers of which a section keeps what each gives: where one of them changes an item or the whole of the section,
neither it nor a later one changes a member. -/
def Section.Keeps (part : Section) : List Layer → Prop
  | [] => True
  | layer :: layers => (layer.TabularIn part ∨ ∀ l ∈ layer :: layers, Layer.WholeIn l part) ∧ part.Keeps layers

theorem Section.Keeps.of_append (more : List Layer) (h : part.Keeps (layers ++ more)) : part.Keeps layers := by
  induction layers with
  | nil => trivial
  | cons layer layers ih =>
      obtain ⟨hfirst, hrest⟩ := h
      refine ⟨hfirst.imp_right fun hwhole l hl => ?_, ih hrest⟩
      exact hwhole l (List.mem_append_left more hl)

theorem Section.Keeps.tabularIn (h : part.Keeps layers)
    (htable : sec.changeAll (layers.flatMap part.changes) = table origin entries) :
    ∀ layer ∈ layers, Layer.TabularIn layer part := by
  induction layers generalizing sec with
  | nil => nofun
  | cons layer layers ih =>
      obtain ⟨hfirst, hrest⟩ := h
      rcases hfirst with htabular | hwhole
      · rw [List.flatMap_cons, changeAll_append] at htable
        exact List.forall_mem_cons.mpr ⟨htabular, ih hrest htable⟩
      · have hchanges : ∀ c ∈ (layer :: layers).flatMap part.changes, ¬ c.OfMember := by
          intro c hc
          obtain ⟨l, hl, hc⟩ := List.mem_flatMap.mp hc
          exact hwhole l hl c hc
        rcases List.eq_nil_or_concat ((layer :: layers).flatMap part.changes) with hnil | ⟨cs, c, hcs⟩
        · intro l hl c hc
          rw [List.flatMap_eq_nil_iff.mp hnil l hl] at hc
          cases hc
        · have hmem : c ∈ (layer :: layers).flatMap part.changes := by
            rw [hcs, List.concat_eq_append]
            exact List.mem_append_right _ (List.mem_singleton_self c)
          rw [hcs, List.concat_eq_append, changeAll_append] at htable
          obtain ⟨l, -, hc⟩ := List.mem_flatMap.mp hmem
          refine absurd htable (change_ne_table ?_ (hchanges c hmem) _ origin entries)
          rintro origin entries rfl
          exact not_table_mem_changes part l origin entries hc

theorem Layer.TabularIn.fromStart (h : layer.TabularIn part) : layer.FromStart part :=
  fun c hc => (h c hc).fromEnd_eq_false

theorem Layer.TabularIn.of_paths {paths : List Path} (h : (part.changes layer).map Prod.fst = paths)
    (hpaths : ∀ path ∈ paths, ∃ name rest, path = .member name :: rest) : layer.TabularIn part := by
  rintro ⟨path, v⟩ hc
  have hmem := List.mem_map_of_mem (f := Prod.fst) hc
  rw [h] at hmem
  obtain ⟨name, rest, rfl⟩ := hpaths path hmem
  exact ⟨name, rest, v, rfl⟩

theorem Layer.WholeIn.of_paths {paths : List Path} (h : (part.changes layer).map Prod.fst = paths)
    (hpaths : ∀ name rest, .member name :: rest ∉ paths) : layer.WholeIn part := by
  rintro c hc ⟨name, rest, v, rfl⟩
  have hmem := List.mem_map_of_mem (f := Prod.fst) hc
  rw [h] at hmem
  exact hpaths name rest hmem

theorem Layer.tabular_nil : Layer.Tabular [] := fun _ _ hc => absurd hc List.not_mem_nil

theorem Layer.Tabular.cons {e : String × Value} {path : Path}
    (hpath : Path.ofText e.1 = .member name :: .member key :: path) (h : layer.Tabular) :
    Layer.Tabular (e :: layer) := by
  intro part c hc
  rw [Section.changes_cons, hpath, Section.changesOf, List.mem_append] at hc
  rcases hc with hc | hc
  · split at hc
    · cases List.mem_singleton.mp hc
      exact ⟨key, path, e.2, rfl⟩
    · cases hc
  · exact h part c hc

theorem Layer.tabular_layerOf (given : List (Setting × Scalar)) : Layer.Tabular (layerOf given) := by
  induction given with
  | nil => exact Layer.tabular_nil
  | cons p given ih => exact .cons p.1.ofText_path ih

theorem changes_perm (h : layer'.Perm layer) (part : Section) : (part.changes layer').Perm (part.changes layer) :=
  h.flatMap_right _

theorem given_perm (h : layer'.Perm layer) (t : Setting) : (t.given layer').Perm (t.given layer) :=
  (changes_perm h t.part).filterMap _

theorem Layer.FromStart.perm (h : layer'.Perm layer) (hstart : layer.FromStart part) : Layer.FromStart layer' part :=
  fun c hc => hstart c ((changes_perm h part).mem_iff.mp hc)

theorem Layer.TabularIn.perm (h : layer'.Perm layer) (htabular : layer.TabularIn part) :
    Layer.TabularIn layer' part :=
  fun c hc => htabular c ((changes_perm h part).mem_iff.mp hc)

theorem Layer.WholeIn.perm (h : layer'.Perm layer) (hwhole : layer.WholeIn part) : Layer.WholeIn layer' part :=
  fun c hc => hwhole c ((changes_perm h part).mem_iff.mp hc)

theorem given_ne_nil_of_perm (h : layer'.Perm layer) (hgiven : t.given layer ≠ []) : t.given layer' ≠ [] :=
  fun hnil => hgiven (List.nil_perm.mp (hnil ▸ given_perm h t))

theorem environment_perm {env env' : Environment} (h : env'.Perm env) : env'.layer.Perm env.layer := h.filterMap _

/-- It does not depend on the order in which each layer lists its entries. -/
theorem Section.Keeps.perm (h : List.Forall₂ List.Perm layers' layers) (hkeeps : part.Keeps layers) :
    part.Keeps layers' := by
  have hwhole : ∀ {layers' layers : List Layer}, List.Forall₂ List.Perm layers' layers →
      (∀ l ∈ layers, Layer.WholeIn l part) → ∀ l ∈ layers', Layer.WholeIn l part := by
    intro layers' layers h
    induction h with
    | nil => exact fun _ => nofun
    | cons hfirst _ ih =>
        intro hlayers
        obtain ⟨hlayer, hlayers⟩ := List.forall_mem_cons.mp hlayers
        exact List.forall_mem_cons.mpr ⟨hlayer.perm hfirst, ih hlayers⟩
  induction h with
  | nil => trivial
  | cons hfirst hrest ih =>
      obtain ⟨hlayer, hlayers⟩ := hkeeps
      refine ⟨hlayer.imp (fun h => h.perm hfirst) fun h => ?_, ih hlayers⟩
      exact hwhole (.cons hfirst hrest) h

/-! ### Settings that are filled -/

/-- Whether a section has a member for a setting that is more than an empty table. -/
def Setting.Filled (t : Setting) (sec : Value) : Prop :=
  ∃ v, sec.asTable.2.lookup t.key = some v ∧ v.isEmptyTable = false

theorem setEntry_ne_nil (name : String) (v : Value) (entries : List (String × Value)) :
    setEntry name v entries ≠ [] := by
  cases entries with
  | nil => exact List.cons_ne_nil _ _
  | cons e es =>
      rw [setEntry]
      split
      · exact List.cons_ne_nil _ _
      · exact List.cons_ne_nil _ _

theorem isEmptyTable_eq_false (h : entries ≠ []) : (table origin entries).isEmptyTable = false := by
  cases entries with
  | nil => exact absurd rfl h
  | cons e es => rfl

theorem isEmptyTable_mergeEntries (h : v.isEmptyTable = false) : (mergeEntries v es).isEmptyTable = false := by
  induction es generalizing v with
  | nil => exact h
  | cons e es ih =>
      rw [mergeEntries]
      exact ih (isEmptyTable_eq_false (setEntry_ne_nil _ _ _))

theorem isEmptyTable_merge {old : Option Value} (hv : v.isEmptyTable = false) : (merge old v).isEmptyTable = false := by
  cases v with
  | scalar origin content => rfl
  | array origin items => rfl
  | table origin entries =>
      rw [merge]
      cases entries with
      | nil => cases hv
      | cons e es =>
          rw [mergeEntries]
          exact isEmptyTable_mergeEntries (isEmptyTable_eq_false (setEntry_ne_nil _ _ _))

theorem isEmptyTable_put (hw : w.isEmptyTable = false) (v : Value) (path : Path) :
    (v.put path (some w)).isEmptyTable = false := by
  cases path with
  | cons step path =>
      cases step with
      | member name =>
          rw [put_member]
          exact isEmptyTable_eq_false (setEntry_ne_nil _ _ _)
      | item index => rfl
  | nil =>
      rw [put]
      cases hv : v.isEmptyTable with
      | false => exact isEmptyTable_merge hv
      | true =>
          cases v with
          | scalar origin content => cases hv
          | array origin items => cases hv
          | table origin entries =>
              rw [merge]
              exact isEmptyTable_mergeEntries hw

theorem filled_of_taken (hc : c.OfMember) (h : t.taken c = some v) : t.Filled (sec.change c) := by
  obtain ⟨name, path, w, rfl⟩ := hc
  cases path with
  | cons step path => cases h
  | nil =>
      rw [Setting.taken] at h
      split at h
      · rename_i hboth
        obtain ⟨rfl, hw⟩ := hboth
        rw [Setting.Filled, Value.change, put_member]
        refine ⟨_, lookup_setEntry.trans (if_pos rfl), ?_⟩
        rw [put]
        exact isEmptyTable_merge (by simpa using hw)
      · cases h

theorem Setting.Filled.change (h : t.Filled sec) (hc : c.OfMember) : t.Filled (sec.change c) := by
  obtain ⟨v, hv, hfilled⟩ := h
  obtain ⟨name, path, w, rfl⟩ := hc
  rw [Setting.Filled, Value.change, put_member]
  by_cases hname : t.key = name
  · refine ⟨_, lookup_setEntry.trans (if_pos hname), ?_⟩
    rw [← hname, hv]
    exact isEmptyTable_put hfilled w path
  · exact ⟨v, (lookup_setEntry.trans (if_neg hname)).trans hv, hfilled⟩

theorem Setting.Filled.changeAll (h : t.Filled sec) (hcs : ∀ c ∈ cs, c.OfMember) : t.Filled (sec.changeAll cs) := by
  induction cs generalizing sec with
  | nil => exact h
  | cons c cs ih =>
      obtain ⟨hc, hcs⟩ := List.forall_mem_cons.mp hcs
      exact ih (h.change hc) hcs

theorem filled_changeAll (hcs : ∀ c ∈ cs, c.OfMember) (hgiven : cs.filterMap t.taken ≠ []) :
    t.Filled (sec.changeAll cs) := by
  induction cs generalizing sec with
  | nil => exact absurd rfl hgiven
  | cons c cs ih =>
      obtain ⟨hc, hcs⟩ := List.forall_mem_cons.mp hcs
      cases htaken : t.taken c with
      | some v => exact (filled_of_taken hc htaken).changeAll hcs
      | none =>
          rw [List.filterMap_cons_none htaken] at hgiven
          exact ih hcs hgiven

/-- If a section keeps what layers give and they give a setting something, the setting is not left empty. -/
theorem Section.Keeps.filled (h : t.part.Keeps layers) (hgiven : layers.flatMap t.given ≠ [])
    (htable : sec.changeAll (layers.flatMap t.part.changes) = table origin entries) :
    t.Filled (table origin entries) := by
  rw [← htable]
  refine filled_changeAll ?_ ?_
  · intro c hc
    obtain ⟨layer, hlayer, hc⟩ := List.mem_flatMap.mp hc
    exact h.tabularIn htable layer hlayer c hc
  · rwa [List.filterMap_flatMap]

end StateHistory.Configuration
