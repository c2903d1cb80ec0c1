import StateHistory.Proofs.Configuration.Setting

/-! # What a layer changes

A layer changes each section of a configuration on its own (`Section.changes`, `sectionOf_putLayer`). A change gives a
setting a value (`Setting.taken`), or it leaves the setting alone, or the setting is no scalar after it
(`find?_change`). So the scalar that is found for a setting after a layer is the last one that the layer gives, or it
was there before (`find?_changes`). The only changes that are not told apart in this way are those that count the items
of a section from its end, as they depend on how many there are. -/

namespace StateHistory.Configuration

open Value

variable {part : Section} {t : Setting} {name key : String} {path : Path} {v w sec root : Value}
  {entries : List (String × Value)} {origin : Option String}

/-! ### Entries -/

theorem lookup_cons_eq (e : String × Value) (es : List (String × Value)) (key : String) :
    (e :: es).lookup key = if key = e.1 then some e.2 else es.lookup key := by
  rw [List.lookup_cons]
  by_cases h : key = e.1
  · rw [beq_iff_eq.mpr h, if_pos h]
  · rw [beq_false_of_ne h, if_neg h]

theorem lookup_setEntry : (setEntry name v entries).lookup key = if key = name then some v else entries.lookup key := by
  induction entries with
  | nil => exact lookup_cons_eq ..
  | cons e es ih =>
      rw [setEntry]
      split
      · rename_i he
        rw [lookup_cons_eq, lookup_cons_eq, he]
        split <;> rfl
      · rename_i he
        rw [lookup_cons_eq, lookup_cons_eq, ih]
        by_cases h : key = name
        · rw [if_pos h, if_pos h, if_neg fun hkey => he (hkey.symm.trans h)]
        · rw [if_neg h, if_neg h]

/-- A table is merged into a value by putting its entries there. -/
theorem mergeEntries_eq_foldl (base : Value) (entries : List (String × Value)) :
    mergeEntries base entries = entries.foldl (fun base e => e.2.put [.member e.1] (some base)) base := by
  induction entries generalizing base with
  | nil => rfl
  | cons e es ih =>
      obtain ⟨name, v⟩ := e
      rw [mergeEntries, List.foldl_cons]
      exact ih _

theorem at?_member (origin : Option String) (entries : List (String × Value)) (name : String) :
    (table origin entries).at? [.member name] = entries.lookup name := by
  rw [at?]
  cases entries.lookup name <;> rfl

theorem put_member (v : Value) (name : String) (path : Path) (sec : Value) :
    v.put (.member name :: path) (some sec) =
      table sec.asTable.1 (setEntry name (v.put path (sec.asTable.2.lookup name)) sec.asTable.2) := by
  rw [put]
  rfl

theorem exists_ofText (s : String) : ∃ name path, Path.ofText s = .member name :: path := by
  rw [Path.ofText]
  cases h : Path.parse? s with
  | none => exact ⟨s, [], rfl⟩
  | some path =>
      simp only [Path.parse?, Option.bind_eq_bind, Option.bind_eq_some_iff] at h
      obtain ⟨⟨name, rest⟩, -, steps, -, h⟩ := h
      cases h
      exact ⟨name, steps, rfl⟩

/-! ### Changes of a section -/

/-- A value that is put somewhere into a section. -/
abbrev Change := Path × Value

/-- What putting a value into a section amounts to. A table is put there entry by entry. -/
def spread : Path → Value → List Change
  | [], .table _ entries => entries.map fun e => ([.member e.1], e.2)
  | path, v => [(path, v)]

/-- What putting a value at a path of the configuration changes in a section. -/
def Section.changesOf (part : Section) (v : Value) : Path → List Change
  | .member name :: path => if name = part.name then spread path v else []
  | _ => []

/-- What a layer changes in a section. -/
def Section.changes (part : Section) (layer : Layer) : List Change :=
  layer.flatMap fun e => part.changesOf e.2 (.ofText e.1)

/-- A section after a change. -/
def Value.change (sec : Value) (c : Change) : Value := c.2.put c.1 (some sec)

/-- A section after changes one after the other. -/
def Value.changeAll (sec : Value) (cs : List Change) : Value := cs.foldl Value.change sec

theorem changeAll_spread (sec : Value) (path : Path) (v : Value) :
    sec.changeAll (spread path v) = v.put path (some sec) := by
  unfold spread
  split
  · rename_i origin entries
    rw [Value.changeAll, List.foldl_map, put, merge, Option.getD_some, mergeEntries_eq_foldl]
    rfl
  · rfl

theorem Section.changes_cons (part : Section) (e : String × Value) (layer : Layer) :
    part.changes (e :: layer) = part.changesOf e.2 (.ofText e.1) ++ part.changes layer := List.flatMap_cons ..

theorem changeAll_append (sec : Value) (cs cs' : List Change) :
    sec.changeAll (cs ++ cs') = (sec.changeAll cs).changeAll cs' := List.foldl_append ..

/-- The value of a section, an empty table if there is none. -/
def Value.sectionOf (root : Value) (part : Section) : Value := (root.at? [.member part.name]).getD empty

theorem put_none (v : Value) (path : Path) : v.put path none = v.put path (some empty) := by
  cases path with
  | nil => cases v <;> rw [put, put, merge, merge] <;> simp
  | cons step path => cases step <;> rw [put, put] <;> rfl

theorem putLayer_cons {e : String × Value} (hpath : Path.ofText e.1 = .member name :: path) (layer : Layer) :
    (table origin entries).putLayer (e :: layer) =
      (table origin (setEntry name (e.2.put path (entries.lookup name)) entries)).putLayer layer := by
  rw [Value.putLayer, List.foldl_cons]
  dsimp only
  rw [hpath, put_member]
  rfl

/-- A layer changes each section of a configuration on its own. -/
theorem sectionOf_putLayer (origin : Option String) (entries : List (String × Value)) (layer : Layer)
    (part : Section) : ∃ origin' entries', (table origin entries).putLayer layer = table origin' entries' ∧
      (table origin' entries').sectionOf part =
        ((table origin entries).sectionOf part).changeAll (part.changes layer) := by
  induction layer generalizing origin entries with
  | nil => exact ⟨origin, entries, rfl, rfl⟩
  | cons e layer ih =>
      obtain ⟨name, path, hpath⟩ := exists_ofText e.1
      obtain ⟨origin', entries', hlayer, hsection⟩ :=
        ih origin (setEntry name (e.2.put path (entries.lookup name)) entries)
      refine ⟨origin', entries', ?_, ?_⟩
      · rw [putLayer_cons hpath, hlayer]
      · rw [hsection, Section.changes_cons, changeAll_append, hpath, Section.changesOf]
        congr 1
        rw [Value.sectionOf, Value.sectionOf, at?_member, at?_member, lookup_setEntry]
        by_cases hname : name = part.name
        · rw [if_pos hname, if_pos hname.symm, hname]
          refine Eq.trans ?_ (changeAll_spread _ path e.2).symm
          cases entries.lookup part.name with
          | none => exact put_none ..
          | some sec => rfl
        · rw [if_neg hname, if_neg (Ne.symm hname)]
          rfl

theorem sectionOf_putLayers (layers : List Layer) (part : Section) :
    (layers.foldl Value.putLayer empty).sectionOf part = empty.changeAll (layers.flatMap part.changes) := by
  have hfold : ∀ origin entries, (layers.foldl Value.putLayer (table origin entries)).sectionOf part =
      ((table origin entries).sectionOf part).changeAll (layers.flatMap part.changes) := by
    induction layers with
    | nil => exact fun origin entries => rfl
    | cons layer layers ih =>
        intro origin entries
        obtain ⟨origin', entries', hlayer, hsection⟩ := sectionOf_putLayer origin entries layer part
        rw [List.foldl_cons, hlayer, ih, hsection, List.flatMap_cons, changeAll_append]
  exact hfold none []

/-! ### Values that are given -/

/-- Whether a value is a table without entries. -/
def Value.isEmptyTable : Value → Bool
  | .table _ [] => true
  | _ => false

namespace Setting

/-- The value that a change gives to a setting. An empty table is no value: nothing comes of merging it. -/
def taken (t : Setting) : Change → Option Value
  | ([.member name], v) => if name = t.key ∧ !v.isEmptyTable then some v else none
  | ([.item index], v) => if index = t.place then some v else none
  | ([], .array _ items) => items[t.place]?
  | _ => none

/-- The values that a layer gives to a setting, the one that counts last. -/
def given (t : Setting) (layer : Layer) : List Value := (t.part.changes layer).filterMap t.taken

end Setting

/-- Whether a change concerns an item of a section that is counted from the end. -/
def Change.fromEnd : Change → Bool
  | (.item index :: _, _) => index < 0
  | _ => false

/-! ### The value that is found -/

section Found

variable {c : Change} {content : Scalar} {items : List Value} {index : Int}

theorem exists_table_mergeEntries (base : Value) (e : String × Value) (es : List (String × Value)) :
    ∃ origin entries, mergeEntries base (e :: es) = table origin entries := by
  induction es generalizing base e with
  | nil => exact ⟨_, _, rfl⟩
  | cons e' es ih =>
      rw [mergeEntries]
      exact ih ..

theorem scalar?_put_cons (v : Value) (step : Step) (path : Path) (old : Option Value) :
    (v.put (step :: path) old).scalar? = none := by
  cases step <;> rw [put] <;> rfl

theorem find?_of_lookup_asTable (h : sec.asTable.2.lookup t.key = some w) : t.find? sec = some w := by
  cases sec with
  | table origin entries => exact h
  | _ => cases h

theorem find?_of_getElem?_asArray (h : sec.asArray.2[t.place]? = some w) : t.find? sec = some w := by
  cases sec with
  | array origin items => exact h
  | _ => cases h

/-- What is merged into a member takes its place, unless it is an empty table. -/
theorem merge_cases {old : Option Value} (h : (merge old v).scalar? = some content) :
    (v.isEmptyTable = false ∧ merge old v = v) ∨ (v.isEmptyTable = true ∧ old = some (merge old v)) := by
  cases v with
  | scalar origin c => exact .inl ⟨rfl, by rw [merge]; simp⟩
  | array origin items => exact .inl ⟨rfl, by rw [merge]; simp⟩
  | table origin entries =>
      rw [merge] at h ⊢
      cases entries with
      | nil =>
          cases old with
          | none => cases h
          | some x => exact .inr ⟨rfl, rfl⟩
      | cons e es =>
          obtain ⟨origin', entries', htable⟩ := exists_table_mergeEntries (old.getD empty) e es
          rw [htable] at h
          cases h

theorem find?_change_member {path : Path} (h : t.find? (sec.change (.member name :: path, v)) = some w)
    (hw : w.scalar? = some content) : t.taken (.member name :: path, v) = some w ∨
      t.taken (.member name :: path, v) = none ∧ t.find? sec = some w := by
  rw [Value.change, put_member] at h
  have h : (if t.key = name then some (v.put path (sec.asTable.2.lookup name)) else
    sec.asTable.2.lookup t.key) = some w := lookup_setEntry.symm.trans h
  by_cases hname : t.key = name
  · rw [if_pos hname, Option.some_inj] at h
    cases path with
    | cons step path =>
        rw [← h, scalar?_put_cons] at hw
        cases hw
    | nil =>
        rw [put] at h
        rw [← h] at hw
        rcases merge_cases hw with ⟨hv, hmerge⟩ | ⟨hv, hold⟩
        · refine .inl ?_
          rw [Setting.taken, if_pos ⟨hname.symm, by rw [hv]; rfl⟩, ← h, hmerge]
        · refine .inr ⟨?_, find?_of_lookup_asTable ?_⟩
          · rw [Setting.taken, if_neg fun hboth => ?_]
            rw [hv] at hboth
            exact absurd hboth.2 (by decide)
          · rw [hname, hold, h]
  · rw [if_neg hname] at h
    refine .inr ⟨?_, find?_of_lookup_asTable h⟩
    cases path with
    | nil => rw [Setting.taken, if_neg fun hboth => hname hboth.1.symm]
    | cons step path => rfl

theorem getElem?_filled {n i : Nat} (h : (items ++ List.replicate n (plain .nothing))[i]? = some w)
    (hw : w.scalar? = some content) (hsome : content ≠ .nothing) : items[i]? = some w := by
  rw [List.getElem?_append] at h
  split at h
  · exact h
  · have hmem := List.mem_of_getElem? h
    rw [List.eq_of_mem_replicate hmem] at hw
    exact absurd (Option.some.inj hw).symm hsome

theorem exists_put_item (v : Value) (index : Int) (path : Path) (sec : Value) : ∃ n x,
    v.put (.item index :: path) (some sec) = array sec.asArray.1
      ((sec.asArray.2 ++ List.replicate n (plain .nothing)).set (place sec.asArray.2.length index) x) ∧
    (path = [] → x = v) ∧ (path ≠ [] → x.scalar? = none) := by
  refine ⟨_, _, by rw [put]; rfl, ?_, ?_⟩
  · rintro rfl
    rfl
  · intro hpath
    cases path with
    | nil => exact absurd rfl hpath
    | cons step path => exact scalar?_put_cons ..

theorem find?_change_item {path : Path} (hindex : ¬ index < 0)
    (h : t.find? (sec.change (.item index :: path, v)) = some w) (hw : w.scalar? = some content)
    (hsome : content ≠ .nothing) : t.taken (.item index :: path, v) = some w ∨
      t.taken (.item index :: path, v) = none ∧ t.find? sec = some w := by
  obtain ⟨n, x, hput, hleaf, hbelow⟩ := exists_put_item v index path sec
  have hplace : place sec.asArray.2.length index = index.toNat := if_neg hindex
  rw [Value.change, hput, hplace] at h
  have h : ((sec.asArray.2 ++ List.replicate n (plain .nothing)).set index.toNat x)[t.place]? = some w := h
  rw [List.getElem?_set] at h
  split at h
  · rename_i hsame
    split at h
    · obtain rfl := Option.some.inj h
      cases path with
      | nil =>
          obtain rfl := hleaf rfl
          exact .inl (if_pos (by omega))
      | cons step path =>
          rw [hbelow (List.cons_ne_nil step path)] at hw
          cases hw
    · cases h
  · rename_i hother
    refine .inr ⟨?_, find?_of_getElem?_asArray (getElem?_filled h hw hsome)⟩
    cases path with
    | nil => exact if_neg (by omega)
    | cons step path => rfl

/-- A scalar that is found after a change was given by it, or it was there before and nothing is given. -/
theorem find?_change (hwhole : ∀ origin entries, c ≠ ([], table origin entries)) (hend : c.fromEnd = false)
    (h : t.find? (sec.change c) = some w) (hw : w.scalar? = some content) (hsome : content ≠ .nothing) :
    t.taken c = some w ∨ t.taken c = none ∧ t.find? sec = some w := by
  obtain ⟨path, v⟩ := c
  match path with
  | [] =>
      cases v with
      | scalar origin c => cases h
      | array origin items => exact .inl h
      | table origin entries => exact absurd rfl (hwhole origin entries)
  | .member name :: path => exact find?_change_member h hw
  | .item index :: path => exact find?_change_item (of_decide_eq_false hend) h hw hsome

theorem getLast?_filterMap_cons {α β : Type} (f : α → Option β) (a : α) (as : List α) :
    ((a :: as).filterMap f).getLast? = ((as.filterMap f).getLast?).or (f a) := by
  cases hf : f a with
  | none => rw [List.filterMap_cons_none hf, Option.or_none]
  | some b =>
      rw [List.filterMap_cons_some hf, List.getLast?_cons]
      cases (as.filterMap f).getLast? <;> rfl

/-- The scalar that is found after some changes is the last one that they give, or the one that was there before. -/
theorem find?_changeAll {cs : List Change} (hwhole : ∀ origin entries, ([], table origin entries) ∉ cs)
    (hend : ∀ c ∈ cs, c.fromEnd = false) (h : t.find? (sec.changeAll cs) = some w) (hw : w.scalar? = some content)
    (hsome : content ≠ .nothing) : ((cs.filterMap t.taken).getLast?).or (t.find? sec) = some w := by
  induction cs generalizing sec with
  | nil => exact h
  | cons c cs ih =>
      obtain ⟨hc, hcs⟩ := List.forall_mem_cons.mp hend
      have hlast := ih (fun origin entries hmem => hwhole origin entries (List.mem_cons_of_mem _ hmem)) hcs h
      rw [getLast?_filterMap_cons]
      cases hgiven : (cs.filterMap t.taken).getLast? with
      | some x =>
          rw [hgiven] at hlast
          exact hlast
      | none =>
          rw [hgiven] at hlast
          have hfirst : ∀ origin entries, c ≠ ([], table origin entries) := by
            rintro origin entries rfl
            exact hwhole origin entries (List.mem_cons_self ..)
          rcases find?_change hfirst hc hlast hw hsome with htaken | ⟨htaken, hbefore⟩
          · rw [htaken]
            rfl
          · rw [htaken]
            exact hbefore

end Found

/-! ### Layers that give scalars -/

section Layers

variable {layer : Layer} {content : Scalar}

/-- The path of a setting. -/
def Setting.steps (t : Setting) : Path := [.member t.part.name, .member t.key]

theorem Setting.ofText_path (t : Setting) : Path.ofText t.path = t.steps := by
  cases t <;> decide +kernel

theorem Setting.steps_injective {t' : Setting} (h : t.steps = t'.steps) : t = t' := by
  cases t <;> cases t' <;> first | rfl | exact absurd h (by decide)

/-- A layer that gives scalars to settings. -/
def layerOf (given : List (Setting × Scalar)) : Layer := given.map fun p => (p.1.path, plain p.2)

/-- All settings. -/
def Setting.all : List Setting := [.host, .port, .startBlock, .stopBefore, .initialDelay, .maxDelay, .factor]

/-- What a setting is unless a layer says otherwise. -/
def Setting.default : Setting → Scalar
  | host => .text "127.0.0.1"
  | port => .text "8080"
  | startBlock | stopBefore => .integer 0
  | initialDelay => .integer 500
  | maxDelay => .integer 30000
  | factor => .float (Binary64.ofNat 2)

theorem defaults_eq_layerOf : Options.defaults = layerOf (Setting.all.map fun t => (t, t.default)) := rfl

/-- The value of a setting among overrides. -/
def Setting.override? (o : Overrides) : Setting → Option Scalar
  | .host => o.host.map .text
  | .port => o.port.map .text
  | .startBlock => o.startBlock.map fun n => .integer n.toNat
  | .stopBefore => o.stopBefore.map fun n => .integer n.toNat
  | .initialDelay | .maxDelay | .factor => none

theorem overrides_eq_layerOf (o : Overrides) :
    o.layer = layerOf (Setting.all.filterMap fun t => (t.override? o).map fun s => (t, s)) := by
  obtain ⟨host, port, startBlock, stopBefore⟩ := o
  cases host <;> cases port <;> cases startBlock <;> cases stopBefore <;> rfl

/-- A scalar is given to a setting by its path only. -/
theorem given_cons {s : String}
    (hitem : ∀ index, Path.ofText s ≠ [.member t.part.name, .item index]) (layer : Layer) :
    t.given ((s, scalar origin content) :: layer) =
      (if Path.ofText s = t.steps then [scalar origin content] else []) ++ t.given layer := by
  obtain ⟨name, path, hpath⟩ := exists_ofText s
  rw [Setting.given, Section.changes_cons, List.filterMap_append, ← Setting.given]
  dsimp only
  rw [hpath] at hitem ⊢
  rw [Section.changesOf, Setting.steps]
  congr 1
  by_cases hname : name = t.part.name
  · subst hname
    rw [if_pos rfl]
    match path with
    | [] => exact (if_neg (by simp)).symm
    | [.item index] => exact absurd rfl (hitem index)
    | [.member key] =>
        by_cases hkey : key = t.key
        · rw [hkey, if_pos rfl]
          exact List.filterMap_cons_some (if_pos ⟨rfl, rfl⟩)
        · rw [if_neg (by simpa using hkey)]
          exact List.filterMap_cons_none (if_neg fun h => hkey h.1)
    | .member _ :: _ :: _ => exact (if_neg (by simp)).symm
    | .item _ :: _ :: _ => exact (if_neg (by simp)).symm
  · rw [if_neg hname, if_neg (by simp [hname])]
    rfl

theorem Setting.given_layerOf (t : Setting) (given : List (Setting × Scalar)) :
    t.given (layerOf given) = (given.filter fun p => p.1 = t).map fun p => plain p.2 := by
  induction given with
  | nil => rfl
  | cons p given ih =>
      have hitem : ∀ index, Path.ofText p.1.path ≠ [.member t.part.name, .item index] := by
        intro index h
        rw [Setting.ofText_path, Setting.steps] at h
        exact Step.noConfusion (List.cons.inj (List.cons.inj h).2).1
      refine (given_cons hitem _).trans ?_
      rw [← layerOf, ih, Setting.ofText_path]
      by_cases h : p.1 = t
      · rw [if_pos (congrArg Setting.steps h), List.filter_cons_of_pos (by simpa using h)]
        rfl
      · rw [if_neg fun hsteps => h (steps_injective hsteps), List.filter_cons_of_neg (by simpa using h)]
        rfl

theorem Setting.given_defaults (t : Setting) : t.given Options.defaults = [plain t.default] := by
  rw [defaults_eq_layerOf, given_layerOf]
  cases t <;> rfl

theorem Setting.given_overrides (o : Overrides) (t : Setting) :
    t.given o.layer = ((t.override? o).map plain).toList := by
  rw [overrides_eq_layerOf, given_layerOf]
  obtain ⟨host, port, startBlock, stopBefore⟩ := o
  cases t <;> cases host <;> cases port <;> cases startBlock <;> cases stopBefore <;> rfl

/-! ### The scalar that a layer leaves -/

theorem not_table_mem_changes (part : Section) (layer : Layer) (origin : Option String)
    (entries : List (String × Value)) : ([], table origin entries) ∉ part.changes layer := by
  intro hmem
  obtain ⟨e, -, hmem⟩ := List.mem_flatMap.mp hmem
  obtain ⟨name, path, hpath⟩ := exists_ofText e.1
  rw [hpath, Section.changesOf] at hmem
  split at hmem
  · unfold spread at hmem
    split at hmem
    · obtain ⟨_, -, heq⟩ := List.mem_map.mp hmem
      cases heq
    · rename_i hother
      obtain heq := List.mem_singleton.mp hmem
      exact hother origin entries (Prod.mk.inj heq).1.symm (Prod.mk.inj heq).2.symm
  · cases hmem

/-- Whether a layer counts no items of a section from its end. -/
def Layer.FromStart (layer : Layer) (part : Section) : Prop := ∀ c ∈ part.changes layer, c.fromEnd = false

/-- The scalar that is found after a layer is the last one that it gives, or what was there before. -/
theorem find?_changes (hstart : layer.FromStart t.part) (h : t.find? (sec.changeAll (t.part.changes layer)) = some w)
    (hw : w.scalar? = some content) (hsome : content ≠ .nothing) :
    ((t.given layer).getLast?).or (t.find? sec) = some w :=
  find?_changeAll (not_table_mem_changes t.part layer) hstart h hw hsome

end Layers

end StateHistory.Configuration
