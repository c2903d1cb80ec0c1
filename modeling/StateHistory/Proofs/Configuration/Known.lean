import StateHistory.Proofs.Configuration.Loading

/-! # Members that nobody knows

A section that is a table is read by the look-ups of its own members, whatever else it holds. So if all that is put
into sections is put into members of them, changes of other members can be left out: nothing comes out differently,
neither options nor what is wrong with them (`Options.ofLayers_congr`). -/

namespace StateHistory

open StateHistory.Configuration

namespace Configuration

open Value

variable {part : Section} {v v' v'' : Value} {c : Change} {cs cs' : List Change} {name : String}

/-- Whether a change concerns something that its section knows. -/
def Section.knows (part : Section) : Change → Bool
  | (.member name :: _, _) => name ∈ part.members
  | _ => true

/-- Two tables with the same members, as far as their section knows them. -/
inductive Section.Alike (part : Section) : Value → Value → Prop
  | tables {origin origin' : Option String} {entries entries' : List (String × Value)}
      (h : ∀ name ∈ part.members, entries.lookup name = entries'.lookup name) :
      part.Alike (table origin entries) (table origin' entries')

theorem alike_empty (part : Section) : part.Alike empty empty := ⟨fun _ _ => rfl⟩

namespace Section.Alike

theorem symm (h : part.Alike v v') : part.Alike v' v := by
  obtain ⟨h⟩ := h
  exact ⟨fun name hname => (h name hname).symm⟩

theorem trans (h : part.Alike v v') (h' : part.Alike v' v'') : part.Alike v v'' := by
  obtain ⟨h⟩ := h
  obtain ⟨h'⟩ := h'
  exact ⟨fun name hname => (h name hname).trans (h' name hname)⟩

theorem change (h : part.Alike v v') (hc : c.OfMember) : part.Alike (v.change c) (v'.change c) := by
  obtain ⟨h⟩ := h
  obtain ⟨name, path, w, rfl⟩ := hc
  rw [Value.change, Value.change, put_member, put_member]
  refine ⟨fun other hother => ?_⟩
  rw [lookup_setEntry, lookup_setEntry]
  split
  · rename_i hsame
    rw [Value.asTable, Value.asTable, ← hsame, h other hother]
  · exact h other hother

theorem change_unknown (h : part.Alike v v') (hc : c.OfMember) (hknows : part.knows c = false) :
    part.Alike (v.change c) v' := by
  obtain ⟨h⟩ := h
  obtain ⟨name, path, w, rfl⟩ := hc
  rw [Value.change, put_member]
  refine ⟨fun other hother => ?_⟩
  have hne : other ≠ name := by
    rintro rfl
    exact of_decide_eq_false hknows hother
  rw [lookup_setEntry, if_neg hne]
  exact h other hother

/-- Changes of members that are not known make no difference. -/
theorem changeAll_filter (h : part.Alike v v') (hcs : ∀ c ∈ cs, c.OfMember) :
    part.Alike (v.changeAll cs) (v'.changeAll (cs.filter part.knows)) := by
  induction cs generalizing v v' with
  | nil => exact h
  | cons c cs ih =>
      obtain ⟨hc, hcs⟩ := List.forall_mem_cons.mp hcs
      cases hknows : part.knows c with
      | true =>
          rw [List.filter_cons_of_pos hknows]
          exact ih (h.change hc) hcs
      | false =>
          rw [List.filter_cons_of_neg (by rw [hknows]; decide)]
          exact ih (h.change_unknown hc hknows) hcs

/-- So changes that agree in what is known make sections that are alike. -/
theorem changeAll (h : part.Alike v v') (hcs : ∀ c ∈ cs, c.OfMember) (hcs' : ∀ c ∈ cs', c.OfMember)
    (hknown : cs.filter part.knows = cs'.filter part.knows) : part.Alike (v.changeAll cs) (v'.changeAll cs') := by
  have hleft := h.changeAll_filter hcs
  have hright := (h.symm.trans h).changeAll_filter hcs'
  rw [← hknown] at hright
  exact hleft.trans hright.symm

theorem merge {base base' : Value} (hbase : part.Alike base base') (h : part.Alike v v')
    (hdistinct : Distinct v.asTable.2) (hdistinct' : Distinct v'.asTable.2) :
    part.Alike (Value.merge (some base) v) (Value.merge (some base') v') := by
  obtain @⟨origin, origin', entries, entries', hbase⟩ := hbase
  obtain @⟨_, _, es, es', h⟩ := h
  obtain ⟨_, _, htable, hlookup⟩ := lookup_mergeEntries origin entries hdistinct
  obtain ⟨_, _, htable', hlookup'⟩ := lookup_mergeEntries origin' entries' hdistinct'
  rw [Value.merge, Value.merge, Option.getD_some, Option.getD_some]
  rw [show (table _ es).asTable.2 = es from rfl] at htable
  rw [show (table _ es').asTable.2 = es' from rfl] at htable'
  rw [htable, htable']
  refine ⟨fun name hname => ?_⟩
  rw [hlookup, hlookup', hbase name hname]
  exact congrArg (fun v => Option.elim v _ _) (h name hname)

/-! ### Reading sections that are alike -/

theorem endpoint_eq (h : Section.node.Alike v v') : Endpoint.ofValue v = Endpoint.ofValue v' := by
  obtain ⟨h⟩ := h
  have hhost := h "host" (by decide)
  have hport := h "port" (by decide)
  dsimp only [Endpoint.ofValue, Section.contents, bind, Except.bind]
  rw [hhost, hport]
  rfl

theorem stream_eq (h : Section.stream.Alike v v') : StreamOptions.ofValue v = StreamOptions.ofValue v' := by
  obtain ⟨h⟩ := h
  have hstart := h "start_block" (by decide)
  have hstop := h "stop_before" (by decide)
  dsimp only [StreamOptions.ofValue, Section.contents, bind, Except.bind]
  rw [hstart, hstop]
  rfl

theorem reconnect_eq (h : Section.reconnect.Alike v v') : ReconnectOptions.ofValue v = ReconnectOptions.ofValue v' := by
  obtain ⟨h⟩ := h
  have hinitial := h "initial_delay_ms" (by decide)
  have hlimit := h "max_delay_ms" (by decide)
  have hfactor := h "backoff_factor" (by decide)
  dsimp only [ReconnectOptions.ofValue, Section.contents, bind, Except.bind]
  rw [hinitial, hlimit, hfactor]
  rfl

end Section.Alike

/-- A configuration is read off the members that its sections know. -/
theorem ofValue_congr {root root' : Value} (h : ∀ part : Section, ∃ v v',
    root.at? [.member part.name] = some v ∧ root'.at? [.member part.name] = some v' ∧ part.Alike v v') :
    Options.ofValue root = Options.ofValue root' := by
  obtain ⟨node, node', hnode, hnode', hnodes⟩ := h .node
  obtain ⟨stream, stream', hstream, hstream', hstreams⟩ := h .stream
  obtain ⟨reconnect, reconnect', hreconnect, hreconnect', hreconnects⟩ := h .reconnect
  simp only [Options.ofValue, Options.sectionValue, hnode, hnode', hstream, hstream', hreconnect, hreconnect', bind,
    Except.bind, hnodes.endpoint_eq, hstreams.stream_eq, hreconnects.reconnect_eq]

/-! ### Sections after all layers -/

theorem exists_table_putLayer (layer : Layer) {origin : Option String} {entries : List (String × Value)}
    (h : (entries.lookup name).isSome) : ∃ origin' entries',
      (table origin entries).putLayer layer = table origin' entries' ∧ (entries'.lookup name).isSome := by
  induction layer generalizing entries with
  | nil => exact ⟨origin, entries, rfl, h⟩
  | cons e layer ih =>
      obtain ⟨other, path, hpath⟩ := exists_ofText e.1
      rw [putLayer_cons hpath]
      refine ih ?_
      rw [lookup_setEntry]
      split
      · rfl
      · exact h

theorem isSome_at?_putLayers (layers : List Layer) (origin : Option String) {entries : List (String × Value)}
    (h : (entries.lookup name).isSome) :
    ((layers.foldl Value.putLayer (table origin entries)).at? [.member name]).isSome := by
  induction layers generalizing origin entries with
  | nil => rwa [List.foldl_nil, at?_member]
  | cons layer layers ih =>
      obtain ⟨origin', entries', htable, h'⟩ := exists_table_putLayer layer h
      rw [List.foldl_cons, htable]
      exact ih origin' h'

/-- Once there are defaults, every section has a value. -/
theorem at?_putLayers (layers : List Layer) (part : Section) :
    ((Options.defaults :: layers).foldl Value.putLayer empty).at? [.member part.name] =
      some (((Options.defaults :: layers).foldl Value.putLayer empty).sectionOf part) := by
  have hdefaults : ∃ entries, empty.putLayer Options.defaults = table none entries ∧
      (entries.lookup part.name).isSome := by
    cases part <;> exact ⟨_, rfl, by decide +kernel⟩
  obtain ⟨entries, htable, hsome⟩ := hdefaults
  rw [Value.sectionOf, List.foldl_cons, htable]
  obtain ⟨v, hv⟩ := Option.isSome_iff_exists.mp (isSome_at?_putLayers layers none hsome)
  rw [hv]
  rfl

/-- What a layer changes of what a section knows. -/
def Section.known (part : Section) (layer : Layer) : List Change := (part.changes layer).filter part.knows

theorem ofMember_of_mem_flatMap {layers : List Layer} (h : ∀ layer ∈ layers, Layer.Tabular layer)
    (hc : c ∈ layers.flatMap part.changes) : c.OfMember := by
  obtain ⟨layer, hlayer, hc⟩ := List.mem_flatMap.mp hc
  exact h layer hlayer part c hc

theorem filter_flatMap_changes (layers : List Layer) :
    (layers.flatMap part.changes).filter part.knows = (layers.map part.known).flatten := by
  rw [List.filter_flatMap, List.flatMap_def]
  rfl

theorem Section.Alike.ofSources {sources sources' : List Layer} (h : ∀ layer ∈ sources, Layer.Tabular layer)
    (h' : ∀ layer ∈ sources', Layer.Tabular layer) (hknown : sources.map part.known = sources'.map part.known) :
    part.Alike (part.ofSources sources) (part.ofSources sources') := by
  refine (alike_empty part).changeAll (fun c => ofMember_of_mem_flatMap h) (fun c => ofMember_of_mem_flatMap h') ?_
  rw [filter_flatMap_changes, filter_flatMap_changes, hknown]

end Configuration

/-- What nobody knows makes no difference: neither to the options nor to what is wrong with them. -/
theorem Options.ofLayers_congr {file file' : Layer} {env env' : Environment} (overrides : Overrides)
    (hfile : file.Tabular) (hfile' : file'.Tabular) (henv : env.layer.Tabular) (henv' : env'.layer.Tabular)
    (hknown : ∀ part : Section, part.known file = part.known file' ∧ part.known env.layer = part.known env'.layer) :
    Options.ofLayers file env overrides = Options.ofLayers file' env' overrides := by
  have hdefaults : Options.defaults.Tabular := by
    rw [defaults_eq_layerOf]
    exact Layer.tabular_layerOf _
  have hoverrides : overrides.layer.Tabular := by
    rw [overrides_eq_layerOf]
    exact Layer.tabular_layerOf _
  have hvalue : ofValue ([defaults, .merge [file, env.layer], overrides.layer].foldl Value.putLayer Value.empty) =
      ofValue ([defaults, .merge [file', env'.layer], overrides.layer].foldl Value.putLayer Value.empty) := by
    refine ofValue_congr fun part => ⟨_, _, at?_putLayers _ part, at?_putLayers _ part, ?_⟩
    rw [sectionOf_layers, sectionOf_layers]
    have hsources : part.Alike (part.ofSources [file, env.layer]) (part.ofSources [file', env'.layer]) := by
      refine .ofSources (by simp [hfile, henv]) (by simp [hfile', henv']) ?_
      simp only [List.map_cons, List.map_nil, (hknown part).1, (hknown part).2]
    have hbase := (alike_empty part).changeAll (hdefaults part) (hdefaults part) rfl
    have hmerged := hbase.merge hsources (distinct_ofSources _ _) (distinct_ofSources _ _)
    exact hmerged.changeAll (hoverrides part) (hoverrides part) rfl
  rw [ofLayers, ofLayers]
  exact congrArg (· >>= _) hvalue

end StateHistory
