import Mathlib.Data.List.TakeWhile
import StateHistory.Proofs.Configuration.Layer

/-! # Merged sources

The sources of a configuration are merged with each other before they are laid over anything. Merged sources put each
section in one piece: what the changes of all sources make of an empty table (`changes_merge`). A table is laid over a
section member by member, and anything else takes its place (`changeAll_merge`, `lookup_mergeEntries`). -/

namespace StateHistory.Configuration

open Value

variable {part : Section} {name : String} {sec : Value} {entries es : List (String × Value)} {origin : Option String}
  {c : Change} {cs : List Change}

/-! ### Tables with distinct names -/

/-- No two entries have the same name. -/
def Distinct (entries : List (String × Value)) : Prop := (entries.map Prod.fst).Nodup

theorem map_fst_setEntry (name : String) (v : Value) (entries : List (String × Value)) :
    (setEntry name v entries).map Prod.fst =
      if name ∈ entries.map Prod.fst then entries.map Prod.fst else entries.map Prod.fst ++ [name] := by
  induction entries with
  | nil => rfl
  | cons e es ih =>
      rw [setEntry, List.map_cons]
      by_cases h : e.1 = name
      · rw [if_pos h, if_pos (by rw [h]; exact List.mem_cons_self ..), List.map_cons, h]
      · rw [if_neg h, List.map_cons, ih]
        by_cases hmem : name ∈ es.map Prod.fst
        · rw [if_pos hmem, if_pos (List.mem_cons_of_mem _ hmem)]
        · rw [if_neg hmem, if_neg (by simp [Ne.symm h, hmem]), List.cons_append]

theorem Distinct.setEntry (h : Distinct entries) (name : String) (v : Value) :
    Distinct (Value.setEntry name v entries) := by
  unfold Distinct
  rw [map_fst_setEntry]
  split
  · exact h
  · rename_i hmem
    rw [← List.concat_eq_append]
    exact h.concat hmem

theorem lookup_mergeEntries (origin : Option String) (entries : List (String × Value)) (hes : Distinct es) :
    ∃ origin' entries',
    mergeEntries (table origin entries) es = table origin' entries' ∧ ∀ key, entries'.lookup key =
      (es.lookup key).elim (entries.lookup key) fun v => some (merge (entries.lookup key) v) := by
  induction es generalizing origin entries with
  | nil => exact ⟨origin, entries, rfl, fun key => rfl⟩
  | cons e es ih =>
      obtain ⟨name, v⟩ := e
      obtain ⟨hname, hes⟩ := List.nodup_cons.mp hes
      obtain ⟨origin', entries', htable, hlookup⟩ :=
        ih origin (Value.setEntry name (merge (entries.lookup name) v) entries) hes
      refine ⟨origin', entries', htable, fun key => ?_⟩
      rw [hlookup, lookup_setEntry, lookup_cons_eq]
      by_cases hkey : key = name
      · rw [if_pos hkey, if_pos hkey, hkey, lookup_eq_none_iff_not_mem.mpr hname]
        rfl
      · rw [if_neg hkey, if_neg hkey]

/-! ### Merged sources -/

theorem ofText_first {s : String} {path : Path} (h : Path.ofText s = .member name :: path) :
    Path.ofText name = [.member name] := by
  rw [Path.ofText] at h
  cases hparse : Path.parse? s with
  | none =>
      rw [hparse] at h
      obtain ⟨hname, -⟩ := List.cons.inj h
      obtain rfl := Step.member.inj hname
      rw [Path.ofText, hparse]
      rfl
  | some steps =>
      rw [hparse, Option.getD_some] at h
      subst h
      simp only [Path.parse?, Option.bind_eq_bind, Option.bind_eq_some_iff] at hparse
      obtain ⟨⟨first, rest⟩, hfirst, steps, -, hparse⟩ := hparse
      obtain ⟨hname, -⟩ := List.cons.inj (Option.some.inj hparse)
      obtain rfl := Step.member.inj hname
      rw [Path.name?] at hfirst
      split at hfirst
      · cases hfirst
      · rename_i hsome
        obtain ⟨rfl, -⟩ := Prod.mk.inj (Option.some.inj hfirst)
        have hname : Path.name? (s.toList.takeWhile Path.isNameChar) =
            some (String.ofList (s.toList.takeWhile Path.isNameChar), []) := by
          rw [Path.name?, List.takeWhile_idem, if_neg hsome, List.drop_length]
        rw [Path.ofText, Path.parse?, String.toList_ofList, hname]
        rfl

/-- The entries of a table at the outermost level: their names are distinct, and each is a path of one step. -/
structure Outermost (entries : List (String × Value)) : Prop where
  distinct : Distinct entries
  path : ∀ e ∈ entries, Path.ofText e.1 = [.member e.1]

theorem Outermost.setEntry (h : Outermost entries) (hname : Path.ofText name = [.member name]) (v : Value) :
    Outermost (Value.setEntry name v entries) where
  distinct := h.distinct.setEntry name v
  path e he := by
    have hmem := List.mem_map_of_mem (f := Prod.fst) he
    rw [map_fst_setEntry] at hmem
    split at hmem
    · obtain ⟨e', he', heq⟩ := List.mem_map.mp hmem
      rw [← heq]
      exact h.path e' he'
    · rcases List.mem_append.mp hmem with hmem | hmem
      · obtain ⟨e', he', heq⟩ := List.mem_map.mp hmem
        rw [← heq]
        exact h.path e' he'
      · rw [List.mem_singleton.mp hmem, hname]

theorem Outermost.putLayer (origin : Option String) (h : Outermost entries) (layer : Layer) : ∃ origin' entries',
    (table origin entries).putLayer layer = table origin' entries' ∧ Outermost entries' := by
  induction layer generalizing origin entries with
  | nil => exact ⟨origin, entries, rfl, h⟩
  | cons e layer ih =>
      obtain ⟨name, path, hpath⟩ := exists_ofText e.1
      rw [putLayer_cons hpath]
      exact ih origin (h.setEntry (ofText_first hpath) _)

theorem exists_outermost (sources : List Layer) : ∃ origin entries,
    sources.foldl Value.putLayer empty = table origin entries ∧ Outermost entries := by
  have hfold : ∀ origin entries, Outermost entries → ∃ origin' entries',
      sources.foldl Value.putLayer (table origin entries) = table origin' entries' ∧ Outermost entries' := by
    induction sources with
    | nil => exact fun origin entries h => ⟨origin, entries, rfl, h⟩
    | cons layer sources ih =>
        intro origin entries h
        obtain ⟨origin', entries', htable, h'⟩ := h.putLayer origin layer
        rw [List.foldl_cons, htable]
        exact ih origin' entries' h'
  exact hfold none [] ⟨List.nodup_nil, fun e he => nomatch he⟩

theorem changes_outermost (h : Outermost entries) (part : Section) :
    part.changes entries = spread [] ((entries.lookup part.name).getD empty) := by
  induction entries with
  | nil => rfl
  | cons e es ih =>
      obtain ⟨hfirst, hes⟩ := List.nodup_cons.mp h.distinct
      obtain ⟨hpath, hpaths⟩ := List.forall_mem_cons.mp h.path
      rw [Section.changes_cons, hpath, Section.changesOf, ih ⟨hes, hpaths⟩, lookup_cons_eq]
      by_cases hname : part.name = e.1
      · rw [if_pos hname.symm, if_pos hname, hname, lookup_eq_none_iff_not_mem.mpr hfirst]
        exact List.append_nil _
      · rw [if_neg (Ne.symm hname), if_neg hname, List.nil_append]

/-- What sources make of a section before it is laid over anything. -/
def Section.ofSources (part : Section) (sources : List Layer) : Value :=
  empty.changeAll (sources.flatMap part.changes)

/-- Merged sources put a section in one piece: what their changes make of an empty table. -/
theorem changes_merge (sources : List Layer) (part : Section) :
    part.changes (.merge sources) = spread [] (part.ofSources sources) := by
  obtain ⟨origin, entries, htable, h⟩ := exists_outermost sources
  rw [Section.ofSources, ← sectionOf_putLayers, Layer.merge, htable, Value.sectionOf, at?_member]
  exact changes_outermost h part

theorem changeAll_merge (sec : Value) (sources : List Layer) (part : Section) :
    sec.changeAll (part.changes (.merge sources)) = merge (some sec) (part.ofSources sources) := by
  rw [changes_merge, changeAll_spread, put]

/-! ### Changes of members -/

/-- A change of a member, not of an item or of a whole section. -/
def Change.OfMember (c : Change) : Prop := ∃ name path v, c = (.member name :: path, v)

theorem Change.OfMember.fromEnd_eq_false (h : c.OfMember) : c.fromEnd = false := by
  obtain ⟨name, path, v, rfl⟩ := h
  rfl

theorem ofMember_of_mem_spread (hc : c ∈ spread [] (table origin entries)) : c.OfMember := by
  obtain ⟨e, -, rfl⟩ := List.mem_map.mp hc
  exact ⟨e.1, [], e.2, rfl⟩

theorem Change.OfMember.ne_table (h : c.OfMember) (origin : Option String) (entries : List (String × Value)) :
    c ≠ ([], table origin entries) := by
  obtain ⟨name, path, v, rfl⟩ := h
  nofun

theorem change_ne_table (hwhole : ∀ origin entries, c ≠ ([], table origin entries)) (hc : ¬ c.OfMember)
    (sec : Value) (origin : Option String) (entries : List (String × Value)) :
    sec.change c ≠ table origin entries := by
  obtain ⟨path, v⟩ := c
  match path with
  | [] =>
      cases v with
      | scalar origin content => nofun
      | array origin items => nofun
      | table origin entries => exact absurd rfl (hwhole origin entries)
  | .member name :: path => exact absurd ⟨name, path, v, rfl⟩ hc
  | .item index :: path => nofun

theorem asTable_changeAll (hwhole : ∀ origin entries, ([], table origin entries) ∉ cs)
    (hcs : ∀ c ∈ cs, ¬ Change.OfMember c) (h : sec.asTable = (none, [])) : (sec.changeAll cs).asTable = (none, []) := by
  induction cs generalizing sec with
  | nil => exact h
  | cons c cs ih =>
      obtain ⟨hc, hcs⟩ := List.forall_mem_cons.mp hcs
      refine ih (fun origin entries hmem => hwhole origin entries (List.mem_cons_of_mem _ hmem)) hcs ?_
      have hne := change_ne_table (c := c) (fun origin entries heq => hwhole origin entries (by simp [heq])) hc sec
      cases hsec : sec.change c with
      | table origin entries => exact absurd hsec (hne origin entries)
      | scalar origin content => rfl
      | array origin items => rfl

/-- What is no table gives way to a member as an empty table does. -/
theorem Change.OfMember.change_eq (hc : c.OfMember) (h : sec.asTable = (none, [])) : sec.change c = empty.change c := by
  obtain ⟨name, path, v, rfl⟩ := hc
  rw [Value.change, Value.change, put_member, put_member, h]
  rfl

theorem distinct_changeAll (hwhole : ∀ origin entries, ([], table origin entries) ∉ cs)
    (h : Distinct sec.asTable.2) : Distinct (sec.changeAll cs).asTable.2 := by
  induction cs generalizing sec with
  | nil => exact h
  | cons c cs ih =>
      have hcs : ∀ origin entries, ([], table origin entries) ∉ cs :=
        fun origin entries hmem => hwhole origin entries (List.mem_cons_of_mem _ hmem)
      refine ih hcs ?_
      by_cases hc : c.OfMember
      · obtain ⟨name, path, v, rfl⟩ := hc
        rw [Value.change, put_member]
        exact h.setEntry _ _
      · have hne := change_ne_table (c := c) (fun origin entries heq => hwhole origin entries (by simp [heq])) hc sec
        cases hsec : sec.change c with
        | table origin entries => exact absurd hsec (hne origin entries)
        | scalar origin content => exact List.nodup_nil
        | array origin items => exact List.nodup_nil

theorem distinct_ofSources (part : Section) (sources : List Layer) : Distinct (part.ofSources sources).asTable.2 := by
  refine distinct_changeAll ?_ List.nodup_nil
  intro origin entries hmem
  obtain ⟨layer, -, hmem⟩ := List.mem_flatMap.mp hmem
  exact not_table_mem_changes part layer origin entries hmem

end StateHistory.Configuration
