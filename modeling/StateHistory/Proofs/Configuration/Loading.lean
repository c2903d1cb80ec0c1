import StateHistory.Proofs.Configuration.Keeping

/-! # Loading options

Options are loaded from merged sources that are laid over the defaults and under the overrides
(`sectionOf_layers`). The value of a setting is one that an override gives, or it is found in the merged sources, or it
is the default under a table of theirs in which the setting is empty (`Setting.Found`, `Loaded.exists_found`). So it is
given by the highest layer that gives it anything, if the section keeps what that layer gives
(`Setting.Found.mem_given`). No source orders what it holds, so all this is said for every order of the entries of
each (`Options.Yielded`). -/

namespace StateHistory.Configuration

open Value

variable {part : Section} {t : Setting} {w sec v : Value} {content : Scalar} {layer : Layer} {o : Options}
  {file : Layer} {env : Environment} {overrides : Overrides}

/-! ### The four layers -/

/-- The layers of a configuration, the one that wins last. -/
def layersOf (file : Layer) (env : Environment) (overrides : Overrides) : List Layer :=
  [Options.defaults, file, env.layer, overrides.layer]

/-- Options that come of some layers in some order of the entries of each source. Their order is left open, as no
source has one. It matters at the outermost level only, for the names within a table are distinct. -/
def Options.Yielded (file : Layer) (env : Environment) (overrides : Overrides) (o : Options) : Prop :=
  ∃ file' env', file'.Perm file ∧ env'.Perm env ∧ Options.ofLayers file' env' overrides = .ok o

/-- Options that may be loaded from a text or a file which makes a layer. -/
inductive Loaded (file : Layer) (env : Environment) (overrides : Overrides) (o : Options) : Prop
  | text {text : String} (hlayer : Form.toml.layer? none text = some file)
      (h : Options.Yielded file env overrides o)
  | files {files : Files} {name : Option String} (hlayer : Options.fileLayer files name = .ok file)
      (h : Options.Yielded file env overrides o)

theorem Loaded.yielded (h : Loaded file env overrides o) : Options.Yielded file env overrides o := by
  cases h with
  | text _ h => exact h
  | files _ h => exact h

theorem loaded_of_ofToml {text : String} (hlayer : Form.toml.layer? none text = some file)
    (h : Options.ofToml text env overrides = .ok o) : Loaded file env overrides o := by
  rw [Options.ofToml, hlayer] at h
  exact .text hlayer ⟨file, env, .refl file, .refl env, h⟩

theorem loaded_of_load {files : Files} {name : Option String} (hlayer : Options.fileLayer files name = .ok file)
    (h : Options.load files name env overrides = .ok o) : Loaded file env overrides o := by
  rw [Options.load, hlayer] at h
  exact .files hlayer ⟨file, env, .refl file, .refl env, h⟩

/-- What a table holds for a setting. -/
theorem mem_taken_iff {origin : Option String} {entries : List (String × Value)} {x : Value}
    (hkeys : (entries.map Prod.fst).Nodup) : x ∈ (spread [] (table origin entries)).filterMap t.taken ↔
      entries.lookup t.key = some x ∧ x.isEmptyTable = false := by
  rw [lookup_eq_some_iff_mem hkeys, spread, List.filterMap_map, List.mem_filterMap]
  constructor
  · rintro ⟨⟨name, v⟩, he, htaken⟩
    dsimp only [Function.comp_apply, Setting.taken] at htaken
    split at htaken
    · rename_i hboth
      obtain ⟨rfl, hv⟩ := hboth
      obtain rfl := Option.some.inj htaken
      exact ⟨he, by simpa using hv⟩
    · cases htaken
  · rintro ⟨he, hx⟩
    exact ⟨(t.key, x), he, if_pos ⟨rfl, by rw [hx]; rfl⟩⟩

/-- What is found for a setting in a section that is laid over another one. -/
theorem find?_merge (hdistinct : Distinct v.asTable.2) (h : t.find? (merge (some sec) v) = some w)
    (hw : w.scalar? = some content) (hsome : content ≠ .nothing) :
    t.find? v = some w ∨ (∃ origin entries, v = table origin entries) ∧ ¬ t.Filled v ∧ t.find? sec = some w := by
  cases v with
  | scalar origin c =>
      rw [merge] at h
      · cases h
      · intro _ _ htable
        cases htable
  | array origin items =>
      rw [merge] at h
      · exact .inl h
      · intro _ _ htable
        cases htable
  | table origin entries =>
      rw [← put, ← changeAll_spread] at h
      have hlast := find?_changeAll (fun o es hc => (ofMember_of_mem_spread hc).ne_table o es rfl)
        (fun c hc => (ofMember_of_mem_spread hc).fromEnd_eq_false) h hw hsome
      cases hgiven : ((spread [] (table origin entries)).filterMap t.taken).getLast? with
      | some x =>
          rw [hgiven] at hlast
          cases hlast
          exact .inl ((mem_taken_iff hdistinct).mp (List.mem_of_getLast? hgiven)).1
      | none =>
          rw [hgiven] at hlast
          refine .inr ⟨⟨origin, entries, rfl⟩, ?_, hlast⟩
          rintro ⟨x, hx, hfilled⟩
          have hin : x ∈ (spread [] (table origin entries)).filterMap t.taken :=
            (mem_taken_iff hdistinct).mpr ⟨hx, hfilled⟩
          exact List.ne_nil_of_mem hin (List.getLast?_eq_none_iff.mp hgiven)

theorem Section.ofSources_pair (part : Section) (file layer : Layer) :
    part.ofSources [file, layer] = (empty.changeAll (part.changes file)).changeAll (part.changes layer) := by
  rw [Section.ofSources, List.flatMap_cons, List.flatMap_cons, List.flatMap_nil, List.append_nil, changeAll_append]

theorem getLast?_given_of_find? (h : t.find? (t.part.ofSources [file, layer]) = some w)
    (hw : w.scalar? = some content) (hsome : content ≠ .nothing) (hlayer : layer.FromStart t.part) :
    (t.given layer).getLast? = some w ∨
      t.given layer = [] ∧ (file.FromStart t.part → (t.given file).getLast? = some w) := by
  rw [Section.ofSources_pair] at h
  have hlast := find?_changes hlayer h hw hsome
  cases hgiven : (t.given layer).getLast? with
  | some x =>
      rw [hgiven] at hlast
      exact .inl hlast
  | none =>
      rw [hgiven] at hlast
      refine .inr ⟨List.getLast?_eq_none_iff.mp hgiven, fun hfile => ?_⟩
      have hbefore := find?_changes hfile hlast hw hsome
      rwa [show t.find? empty = none from rfl, Option.or_none] at hbefore

/-- Where the value of a setting is found in the end, for some order of the entries of each source. -/
inductive Setting.Found (t : Setting) (file : Layer) (env : Environment) (overrides : Overrides) (w : Value) : Prop
  | override (h : w ∈ t.given overrides.layer)
  | source {file' layer : Layer} (hnone : t.given overrides.layer = []) (hfile : file'.Perm file)
      (henv : layer.Perm env.layer) (h : t.find? (t.part.ofSources [file', layer]) = some w)
  | default {file' layer : Layer} {origin : Option String} {entries : List (String × Value)}
      (hnone : t.given overrides.layer = []) (hfile : file'.Perm file) (henv : layer.Perm env.layer)
      (htable : t.part.ofSources [file', layer] = table origin entries) (hempty : ¬ t.Filled (table origin entries))
      (hw : w = plain t.default)

theorem find?_defaults (h : t.find? (empty.changeAll (t.part.changes Options.defaults)) = some w)
    (hw : w.scalar? = some content) (hsome : content ≠ .nothing) : w = plain t.default := by
  have hstart : Layer.FromStart Options.defaults t.part := by
    rw [defaults_eq_layerOf]
    exact (Layer.tabular_layerOf _ t.part).fromStart
  have hlast := find?_changes hstart h hw hsome
  rw [Setting.given_defaults] at hlast
  exact (Option.some.inj hlast).symm

/-- A section after all layers: the merged sources over the defaults, under the overrides. -/
theorem sectionOf_layers (file layer : Layer) (overrides : Overrides) (part : Section) :
    ([Options.defaults, .merge [file, layer], overrides.layer].foldl Value.putLayer empty).sectionOf part =
      (merge (some (empty.changeAll (part.changes Options.defaults))) (part.ofSources [file, layer])).changeAll
        (part.changes overrides.layer) := by
  rw [sectionOf_putLayers, List.flatMap_cons, List.flatMap_cons, List.flatMap_cons, List.flatMap_nil, List.append_nil,
    changeAll_append, changeAll_append, changeAll_merge]

/-- Every option is what the scalar is read as that is found for it. -/
theorem Loaded.exists_found (h : Loaded file env overrides o) (t : Setting) : ∃ w content,
    t.Found file env overrides w ∧ w.scalar? = some content ∧ content ≠ .nothing ∧
      t.read? content = some (o.get t) := by
  obtain ⟨file', env', hfile, henv, h⟩ := h.yielded
  have henv := environment_perm henv
  obtain ⟨options, hread, h⟩ := bind_eq_ok_iff.mp h
  obtain ⟨⟨⟩, -, h⟩ := bind_eq_ok_iff.mp h
  cases h
  have hreading := Setting.reading?_of_ofValue hread t
  obtain ⟨sec, hsec, hreading⟩ := Option.bind_eq_some_iff.mp hreading
  obtain ⟨w, hw, hreading⟩ := Option.bind_eq_some_iff.mp hreading
  obtain ⟨content, hcontent, hreading⟩ := Option.bind_eq_some_iff.mp hreading
  have hsome : content ≠ .nothing := by
    rintro rfl
    rw [t.read?_nothing] at hreading
    cases hreading
  refine ⟨w, content, ?_, hcontent, hsome, hreading⟩
  have hsection := sectionOf_layers file' env'.layer overrides t.part
  rw [Value.sectionOf, hsec, Option.getD_some] at hsection
  rw [hsection] at hw
  have hstart : Layer.FromStart overrides.layer t.part := by
    rw [overrides_eq_layerOf]
    exact (Layer.tabular_layerOf _ t.part).fromStart
  have hlast := find?_changes hstart hw hcontent hsome
  cases hgiven : (t.given overrides.layer).getLast? with
  | some x =>
      rw [hgiven] at hlast
      cases hlast
      exact .override (List.mem_of_getLast? hgiven)
  | none =>
      rw [hgiven] at hlast
      have hnone := List.getLast?_eq_none_iff.mp hgiven
      rcases find?_merge (distinct_ofSources _ _) hlast hcontent hsome with hsource | ⟨⟨_, _, htable⟩, hempty, hdefault⟩
      · exact .source hnone hfile henv hsource
      · rw [htable] at hempty
        exact .default hnone hfile henv htable hempty (find?_defaults hdefault hcontent hsome)

namespace Setting.Found

variable (h : t.Found file env overrides w) (hw : w.scalar? = some content) (hsome : content ≠ .nothing)

include h

theorem of_overrides (hgiven : t.given overrides.layer ≠ []) : w ∈ t.given overrides.layer := by
  cases h with
  | override hmem => exact hmem
  | source hnone _ _ _ => exact absurd hnone hgiven
  | default hnone _ _ _ _ _ => exact absurd hnone hgiven

include hw hsome

theorem of_environment (hoverrides : t.given overrides.layer = []) (hgiven : t.given env.layer ≠ [])
    (hstart : Layer.FromStart env.layer t.part) (hkeeps : t.part.Keeps [env.layer]) : w ∈ t.given env.layer := by
  cases h with
  | override hmem =>
      rw [hoverrides] at hmem
      cases hmem
  | source _ _ henv hfind =>
      rcases getLast?_given_of_find? hfind hw hsome (hstart.perm henv) with hlast | ⟨hnil, -⟩
      · exact (given_perm henv t).mem_iff.mp (List.mem_of_getLast? hlast)
      · exact absurd hnil (given_ne_nil_of_perm henv hgiven)
  | @default _ layer _ _ _ _ henv htable hempty _ =>
      have hkeeps : t.part.Keeps [layer] := hkeeps.perm (.cons henv .nil)
      have hgiven : [layer].flatMap t.given ≠ [] := by
        rw [List.flatMap_singleton]
        exact given_ne_nil_of_perm henv hgiven
      rw [Section.ofSources_pair, ← List.flatMap_singleton (f := t.part.changes) (x := layer)] at htable
      exact absurd (hkeeps.filled hgiven htable) hempty

theorem of_file (hoverrides : t.given overrides.layer = []) (henvironment : t.given env.layer = [])
    (hgiven : t.given file ≠ []) (hstart : Layer.FromStart env.layer t.part) (hfileStart : file.FromStart t.part)
    (hkeeps : t.part.Keeps [file, env.layer]) : w ∈ t.given file := by
  cases h with
  | override hmem =>
      rw [hoverrides] at hmem
      cases hmem
  | source _ hfile henv hfind =>
      rcases getLast?_given_of_find? hfind hw hsome (hstart.perm henv) with hlast | ⟨-, hlast⟩
      · have hmem := (given_perm henv t).mem_iff.mp (List.mem_of_getLast? hlast)
        rw [henvironment] at hmem
        cases hmem
      · exact (given_perm hfile t).mem_iff.mp (List.mem_of_getLast? (hlast (hfileStart.perm hfile)))
  | @default file' layer _ _ _ hfile henv htable hempty _ =>
      have hkeeps : t.part.Keeps [file', layer] := hkeeps.perm (.cons hfile (.cons henv .nil))
      have hgiven : [file', layer].flatMap t.given ≠ [] := by
        rw [List.flatMap_cons]
        exact List.append_ne_nil_of_left_ne_nil (given_ne_nil_of_perm hfile hgiven) _
      exact absurd (hkeeps.filled hgiven htable) hempty

theorem of_nothing (hoverrides : t.given overrides.layer = []) (henvironment : t.given env.layer = [])
    (hnothing : t.given file = []) (hstart : Layer.FromStart env.layer t.part) (hfileStart : file.FromStart t.part) :
    w = plain t.default := by
  cases h with
  | override hmem =>
      rw [hoverrides] at hmem
      cases hmem
  | source _ hfile henv hfind =>
      rcases getLast?_given_of_find? hfind hw hsome (hstart.perm henv) with hlast | ⟨-, hlast⟩
      · have hmem := (given_perm henv t).mem_iff.mp (List.mem_of_getLast? hlast)
        rw [henvironment] at hmem
        cases hmem
      · have hmem := (given_perm hfile t).mem_iff.mp (List.mem_of_getLast? (hlast (hfileStart.perm hfile)))
        rw [hnothing] at hmem
        cases hmem
  | default _ _ _ _ _ hdefault => exact hdefault

/-- An array or a scalar of the file is dropped as soon as the environment sets a member. -/
theorem of_dropped (hoverrides : t.given overrides.layer = []) (henvironment : t.given env.layer = [])
    (hfile : file.WholeIn t.part) (hmember : ∃ c ∈ t.part.changes env.layer, c.OfMember)
    (hkeeps : t.part.Keeps [env.layer]) : w = plain t.default := by
  have htabular : Layer.TabularIn env.layer t.part := by
    obtain ⟨c, hc, hmember⟩ := hmember
    refine hkeeps.1.resolve_right fun hwhole => ?_
    exact hwhole env.layer (List.mem_singleton_self _) c hc hmember
  cases h with
  | override hmem =>
      rw [hoverrides] at hmem
      cases hmem
  | @source file' layer _ hfile' henv hfind =>
      have hnone : t.given layer = [] := List.perm_nil.mp (henvironment ▸ given_perm henv t)
      have hdropped : (empty.changeAll (t.part.changes file')).asTable = (none, []) :=
        asTable_changeAll (not_table_mem_changes t.part file') (hfile.perm hfile') rfl
      rw [Section.ofSources_pair] at hfind
      cases hchanges : t.part.changes layer with
      | nil =>
          obtain ⟨c, hc, -⟩ := hmember
          have hc := (changes_perm henv t.part).mem_iff.mpr hc
          rw [hchanges] at hc
          cases hc
      | cons c cs =>
          have hc : c.OfMember := htabular.perm henv c (by rw [hchanges]; exact List.mem_cons_self ..)
          have hsame : (empty.changeAll (t.part.changes file')).changeAll (t.part.changes layer) =
              empty.changeAll (t.part.changes layer) := by
            rw [hchanges]
            exact congrArg (Value.changeAll · cs) (hc.change_eq hdropped)
          rw [hsame] at hfind
          have hlast := find?_changes (htabular.perm henv).fromStart hfind hw hsome
          rw [hnone] at hlast
          cases hlast
  | default _ _ _ _ _ hdefault => exact hdefault

end Setting.Found

/-- What is found for a setting is given by the highest layer that gives it something, if the section keeps that. -/
theorem Setting.Found.mem_given (h : t.Found file env overrides w) (hw : w.scalar? = some content)
    (hsome : content ≠ .nothing) {lower higher : List Layer}
    (hlayers : layersOf file env overrides = lower ++ layer :: higher)
    (hkeeps : lower = [] ∨ t.part.Keeps (layer :: higher)) (hgiven : t.given layer ≠ [])
    (hhigher : ∀ l ∈ higher, t.given l = []) (hstart : ∀ l ∈ layer :: higher, Layer.FromStart l t.part) :
    w ∈ t.given layer := by
  match lower, hlayers with
  | [], hlayers =>
      obtain ⟨rfl, rfl⟩ := List.cons.inj hlayers
      have hnone : t.given file = [] ∧ t.given env.layer = [] ∧ t.given overrides.layer = [] := by simpa using hhigher
      rw [Setting.given_defaults, List.mem_singleton]
      exact h.of_nothing hw hsome hnone.2.2 hnone.2.1 hnone.1 (hstart env.layer (by simp)) (hstart file (by simp))
  | [_], hlayers =>
      obtain ⟨-, hlayers⟩ := List.cons.inj hlayers
      obtain ⟨rfl, rfl⟩ := List.cons.inj hlayers
      have hnone : t.given env.layer = [] ∧ t.given overrides.layer = [] := by simpa using hhigher
      have hkeeps : t.part.Keeps [file, env.layer] :=
        (hkeeps.resolve_left (by simp)).of_append [overrides.layer]
      exact h.of_file hw hsome hnone.2 hnone.1 hgiven (hstart env.layer (by simp)) (hstart file (by simp)) hkeeps
  | [_, _], hlayers =>
      obtain ⟨-, hlayers⟩ := List.cons.inj hlayers
      obtain ⟨-, hlayers⟩ := List.cons.inj hlayers
      obtain ⟨rfl, rfl⟩ := List.cons.inj hlayers
      have hkeeps : t.part.Keeps [env.layer] :=
        (hkeeps.resolve_left (by simp)).of_append [overrides.layer]
      exact h.of_environment hw hsome (by simpa using hhigher) hgiven (hstart env.layer (by simp)) hkeeps
  | [_, _, _], hlayers =>
      obtain ⟨-, hlayers⟩ := List.cons.inj hlayers
      obtain ⟨-, hlayers⟩ := List.cons.inj hlayers
      obtain ⟨-, hlayers⟩ := List.cons.inj hlayers
      obtain ⟨rfl, rfl⟩ := List.cons.inj hlayers
      exact h.of_overrides hgiven
  | _ :: _ :: _ :: _ :: lower, hlayers =>
      have hlength := congrArg List.length hlayers
      simp [layersOf] at hlength

end StateHistory.Configuration
