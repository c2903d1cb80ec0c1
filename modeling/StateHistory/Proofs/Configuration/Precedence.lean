import StateHistory.Proofs.Configuration.Known

/-! # Precedence

Each option is what the highest of four layers gives it that gives it anything: what the caller insists on, then the
variable of the environment that is named after it, then the file if that assigns it once, then its default
(`Setting.Decides`, `Options.precedence`). No other option has a part in it, and nothing that has no name among the
options.

Three things are beside this rule (`Options.beside_names`). A variable may lead to an item of a section instead of a
member; it is then the option in this place. A section that the file writes as an array gives way as a whole to a
variable that leads to a member of it, and options that it gave are at their defaults again. An empty table that a file
puts in the place of an option is no value: nothing of it is merged. -/

namespace StateHistory

open StateHistory.Configuration

namespace Configuration

open Value

variable {t : Setting} {env : Environment}

/-! ### Written paths of settings -/

theorem eq_append_of_name? {cs rest : List Char} {name : String} (h : Path.name? cs = some (name, rest)) :
    cs = name.toList ++ rest := by
  rw [Path.name?] at h
  split at h
  · cases h
  · cases h
    rw [String.toList_ofList]
    exact (List.prefix_iff_eq_append.mp (List.takeWhile_prefix _)).symm

theorem eq_nil_of_steps? {bound : Nat} {cs : List Char} (h : Path.steps? bound cs = some []) : cs = [] := by
  unfold Path.steps? at h
  split at h
  · rfl
  · simp [Option.bind_eq_some_iff] at h
  · simp [Option.bind_eq_some_iff] at h
  · cases h

theorem eq_cons_of_steps? {bound : Nat} {cs : List Char} {key : String}
    (h : Path.steps? bound cs = some [.member key]) : cs = '.' :: key.toList := by
  unfold Path.steps? at h
  split at h
  · cases h
  · simp only [Option.bind_eq_bind, Option.bind_eq_some_iff] at h
    obtain ⟨⟨name, rest⟩, hname, path, hrest, h⟩ := h
    cases h
    obtain rfl : rest = [] := eq_nil_of_steps? hrest
    rw [eq_append_of_name? hname, List.append_nil]
  · simp [Option.bind_eq_some_iff] at h
  · cases h

theorem Setting.path_eq (t : Setting) : t.path = t.part.name ++ "." ++ t.key := by
  cases t <;> decide

theorem Setting.ofText_eq_steps_iff {s : String} : Path.ofText s = t.steps ↔ s = t.path := by
  refine ⟨fun h => ?_, fun h => h ▸ t.ofText_path⟩
  rw [Path.ofText] at h
  cases hparse : Path.parse? s with
  | none =>
      rw [hparse] at h
      cases h
  | some path =>
      rw [hparse, Option.getD_some] at h
      subst h
      simp only [Path.parse?, Option.bind_eq_bind, Option.bind_eq_some_iff] at hparse
      obtain ⟨⟨name, rest⟩, hname, steps, hsteps, hparse⟩ := hparse
      obtain ⟨hfirst, hrest⟩ := List.cons.inj (Option.some.inj hparse)
      obtain rfl : name = t.part.name := Step.member.inj hfirst
      obtain rfl : rest = '.' :: t.key.toList := eq_cons_of_steps? (hrest ▸ hsteps)
      rw [← String.toList_inj, eq_append_of_name? hname, t.path_eq, String.toList_append, String.toList_append,
        List.append_assoc]
      rfl

/-! ### Variables -/

/-- The variable of the environment that sets a setting. -/
def Setting.variableName (t : Setting) : String := Options.variableName t.path

theorem Setting.variablePath?_variableName (t : Setting) : variablePath? t.variableName = some t.path := by
  cases t <;> decide +kernel

/-- The value of the variable that is named like the one of a setting. -/
def Setting.environmentText? (env : Environment) (t : Setting) : Option String :=
  (env.find? fun v => variablePath? v.1 = variablePath? t.variableName).map Prod.snd

theorem filter_eq_toList_find? {α β : Type} [DecidableEq β] (f : α → Option β) (b : β) {as : List α}
    (h : (as.filterMap f).Nodup) : (as.filter fun a => f a = some b) = (as.find? fun a => f a = some b).toList := by
  induction as with
  | nil => rfl
  | cons a as ih =>
      by_cases ha : f a = some b
      · rw [List.filterMap_cons_some ha, List.nodup_cons, List.mem_filterMap] at h
        have hnone : (as.filter fun a => f a = some b) = [] :=
          List.filter_eq_nil_iff.mpr fun a' ha' heq => h.1 ⟨a', ha', of_decide_eq_true heq⟩
        rw [List.filter_cons_of_pos (by simpa using ha), List.find?_cons_of_pos (by simpa using ha), hnone]
        rfl
      · have htail : (as.filterMap f).Nodup := h.sublist ((List.sublist_cons_self a as).filterMap f)
        rw [List.filter_cons_of_neg (by simpa using ha), List.find?_cons_of_neg (by simpa using ha), ih htail]

/-- An environment that names what it gives: no two variables mean the same, none leads to an item of a section, and
none that means a whole section is beside one that leads to a member of it. -/
structure Named (env : Environment) : Prop where
  distinct : (env.filterMap fun v => variablePath? v.1).Nodup
  unindexed : ∀ v ∈ env, ∀ s, variablePath? v.1 = some s → ∀ (part : Section) index path,
    Path.ofText s ≠ .member part.name :: .item index :: path
  keeps : ∀ part : Section, part.Keeps [env.layer]

theorem Environment.layer_cons (v : String × String) (env : Environment) : Environment.layer (v :: env) =
    ((variablePath? v.1).map fun path => (path, scalar (some environmentOrigin) (.text v.2))).toList ++
      env.layer := by
  rw [Environment.layer, List.filterMap_cons]
  dsimp only
  cases variablePath? v.1 <;> rfl

theorem Setting.given_variables (hunindexed : ∀ v ∈ env, ∀ s, variablePath? v.1 = some s →
    ∀ index, Path.ofText s ≠ [.member t.part.name, .item index]) :
    t.given env.layer = (env.filter fun v => variablePath? v.1 = some t.path).map fun v =>
      scalar (some environmentOrigin) (.text v.2) := by
  induction env with
  | nil => rfl
  | cons v env ih =>
      obtain ⟨hv, hunindexed⟩ := List.forall_mem_cons.mp hunindexed
      cases hpath : variablePath? v.1 with
      | none =>
          rw [Environment.layer_cons, List.filter_cons_of_neg (by rw [hpath]; simp), ← ih hunindexed, hpath]
          rfl
      | some s =>
          rw [Environment.layer_cons, hpath, Option.map_some, Option.toList_some, List.singleton_append]
          refine (given_cons (hv s hpath) _).trans ?_
          rw [ih hunindexed]
          simp only [ofText_eq_steps_iff]
          by_cases h : s = t.path
          · rw [if_pos h, List.filter_cons_of_pos (by simp [hpath, h])]
            rfl
          · rw [if_neg h, List.filter_cons_of_neg (by simp [hpath, h])]
            rfl

theorem Setting.given_environment (h : Named env) (t : Setting) :
    t.given env.layer = ((t.environmentText? env).map fun s => scalar (some environmentOrigin) (.text s)).toList := by
  have hunindexed : ∀ v ∈ env, ∀ s, variablePath? v.1 = some s → ∀ index,
      Path.ofText s ≠ [.member t.part.name, .item index] := fun v hv s hs index => h.unindexed v hv s hs t.part index []
  rw [given_variables hunindexed, filter_eq_toList_find? _ _ h.distinct, Setting.environmentText?,
    t.variablePath?_variableName]
  cases env.find? _ <;> rfl

theorem Named.fromStart (h : Named env) (part : Section) : Layer.FromStart env.layer part := by
  intro c hc
  obtain ⟨e, he, hc⟩ := List.mem_flatMap.mp hc
  obtain ⟨v, hv, he⟩ := List.mem_filterMap.mp he
  obtain ⟨s, hs, rfl⟩ := Option.map_eq_some_iff.mp he
  obtain ⟨name, path, hpath⟩ := exists_ofText s
  dsimp only at hc
  rw [hpath, Section.changesOf] at hc
  split at hc
  · rename_i hname
    subst hname
    cases path with
    | nil =>
        cases List.mem_singleton.mp hc
        rfl
    | cons step path =>
        cases step with
        | member name =>
            cases List.mem_singleton.mp hc
            rfl
        | item index => exact absurd hpath (h.unindexed v hv s hs part index path)
  · cases hc

/-! ### What a setting is -/

/-- What decides a setting: an override; else its variable; else the value of the file, if that assigns it once, by its
key or in its place, and its section keeps what the file gives; else its default. A section that the file does not
write by members is dropped as a whole when a variable leads to a member of it. -/
inductive Setting.Decides (file : Layer) (env : Environment) (overrides : Overrides) (t : Setting) :
    Option Scalar → Prop
  | override {s : Scalar} (h : t.override? overrides = some s) : t.Decides file env overrides (some s)
  | environment {s : String} (hoverride : t.override? overrides = none) (h : t.environmentText? env = some s) :
      t.Decides file env overrides (some (.text s))
  | file {v : Value} (hoverride : t.override? overrides = none) (henvironment : t.environmentText? env = none)
      (hkeeps : t.part.Keeps [file, env.layer]) (hstart : file.FromStart t.part) (h : t.given file = [v]) :
      t.Decides file env overrides v.scalar?
  | dropped (hoverride : t.override? overrides = none) (henvironment : t.environmentText? env = none)
      (hfile : file.WholeIn t.part) (hmember : ∃ c ∈ t.part.changes env.layer, c.OfMember) :
      t.Decides file env overrides (some t.default)
  | default (hoverride : t.override? overrides = none) (henvironment : t.environmentText? env = none)
      (hstart : file.FromStart t.part) (h : t.given file = []) : t.Decides file env overrides (some t.default)

variable {file : Layer} {overrides : Overrides} {o : Options}

theorem given_overrides_eq_nil (h : t.override? overrides = none) : t.given overrides.layer = [] := by
  rw [Setting.given_overrides, h]
  rfl

theorem given_environment_eq_nil (h : Named env) (henv : t.environmentText? env = none) : t.given env.layer = [] := by
  rw [Setting.given_environment h, henv]
  rfl

/-- A setting is what decides it. -/
theorem Setting.Decides.get_eq {c : Option Scalar} (h : t.Decides file env overrides c) (henv : Named env)
    (hload : Loaded file env overrides o) : c.bind t.read? = some (o.get t) := by
  obtain ⟨w, content, hfound, hw, hsome, hread⟩ := hload.exists_found t
  suffices hscalar : w.scalar? = c by
    rw [← hscalar, hw]
    exact hread
  have hstart := henv.fromStart t.part
  have hkeeps := henv.keeps t.part
  cases h with
  | @override s h =>
      have hgiven : t.given overrides.layer = [plain s] := by
        rw [Setting.given_overrides, h]
        rfl
      have hmem := hfound.of_overrides (by rw [hgiven]; nofun)
      rw [hgiven, List.mem_singleton] at hmem
      rw [hmem]
      rfl
  | @environment s hoverride h =>
      have hgiven : t.given env.layer = [scalar (some environmentOrigin) (.text s)] := by
        rw [Setting.given_environment henv, h]
        rfl
      have hmem := hfound.of_environment hw hsome (given_overrides_eq_nil hoverride) (by rw [hgiven]; nofun) hstart
        hkeeps
      rw [hgiven, List.mem_singleton] at hmem
      rw [hmem]
      rfl
  | file hoverride henvironment hfileKeeps hfileStart h =>
      have hmem := hfound.of_file hw hsome (given_overrides_eq_nil hoverride)
        (given_environment_eq_nil henv henvironment) (by rw [h]; nofun) hstart hfileStart hfileKeeps
      rw [h, List.mem_singleton] at hmem
      rw [hmem]
  | dropped hoverride henvironment hfile hmember =>
      rw [hfound.of_dropped hw hsome (given_overrides_eq_nil hoverride) (given_environment_eq_nil henv henvironment)
        hfile hmember hkeeps]
      rfl
  | default hoverride henvironment hfileStart h =>
      rw [hfound.of_nothing hw hsome (given_overrides_eq_nil hoverride) (given_environment_eq_nil henv henvironment) h
        hstart hfileStart]
      rfl

end Configuration

namespace Options

variable {env : Environment}

/-- Each option is read off what decides it, whatever else is given, and in whatever order each source lists what it
holds. Options that are loaded from other sources agree in a setting that the same decides. What is put into sections
under other names than those of their options makes no difference at all, as long as values are put into members of
sections only. -/
theorem precedence (overrides : Overrides) (h : Named env) :
    (∀ file o t c, Loaded file env overrides o → Setting.Decides file env overrides t c →
      c.bind t.read? = some (o.get t)) ∧
    (∀ file file' env' overrides' o o' t c, Named env' → Loaded file env overrides o →
      Loaded file' env' overrides' o' → Setting.Decides file env overrides t c →
      Setting.Decides file' env' overrides' t c → o.get t = o'.get t) ∧
    ∀ file file' env', file.Tabular → file'.Tabular → env.layer.Tabular → env'.layer.Tabular →
      (∀ part : Section, part.known file = part.known file' ∧ part.known env.layer = part.known env'.layer) →
      ofLayers file env overrides = ofLayers file' env' overrides := by
  refine ⟨fun file o t c hload hdecides => hdecides.get_eq h hload, ?_, fun file file' env' => ofLayers_congr overrides⟩
  intro file file' env' overrides' o o' t c h' hload hload' hdecides hdecides'
  have hget := hdecides.get_eq h hload
  rw [hdecides'.get_eq h' hload'] at hget
  exact (Option.some.inj hget).symm

section Sample

/-- A text with a section that is an array, and one that is a table. -/
def sampleText : String := "stream = [5, 100]\n[node]\nhost = \"a\"\nport = 9"

/-- A member of the section that is an array, and a member that the other one does not know. -/
def sampleEnvironment : Environment := [("SHIP_STREAM__STOP_BEFORE", "50"), ("SHIP_NODE__COLOR", "red")]

theorem paths_sampleEnvironment : sampleEnvironment.map (fun v => variablePath? v.1) =
    [some "stream.stop_before", some "node.color"] := by decide +kernel

theorem ofText_sampleEnvironment : Path.ofText "stream.stop_before" = [.member "stream", .member "stop_before"] ∧
    Path.ofText "node.color" = [.member "node", .member "color"] := by decide +kernel

theorem layer_sampleEnvironment : sampleEnvironment.layer =
    Environment.layer [("SHIP_STREAM__STOP_BEFORE", "50")] ++
      [("node.color", .scalar (some environmentOrigin) (.text "red"))] ∧
    Environment.layer [("SHIP_STREAM__STOP_BEFORE", "50")] =
      [("stream.stop_before", .scalar (some environmentOrigin) (.text "50"))] := by
  obtain ⟨hstop, hcolor⟩ := List.cons.inj paths_sampleEnvironment
  have hcolor := (List.cons.inj hcolor).1
  dsimp only at hstop hcolor
  rw [sampleEnvironment, Environment.layer_cons, Environment.layer_cons, Environment.layer_cons, hstop, hcolor]
  exact ⟨rfl, rfl⟩

theorem tabular_sample : Layer.Tabular sampleEnvironment.layer ∧
    Layer.Tabular (Environment.layer [("SHIP_STREAM__STOP_BEFORE", "50")]) := by
  obtain ⟨hlayer, hsingle⟩ := layer_sampleEnvironment
  obtain ⟨hstop, hcolor⟩ := ofText_sampleEnvironment
  rw [hlayer, hsingle]
  exact ⟨.cons hstop (.cons hcolor Layer.tabular_nil), .cons hstop Layer.tabular_nil⟩

theorem known_sample (part : Section) :
    part.known sampleEnvironment.layer = part.known (Environment.layer [("SHIP_STREAM__STOP_BEFORE", "50")]) := by
  obtain ⟨hlayer, -⟩ := layer_sampleEnvironment
  rw [Section.known, Section.known, hlayer, Section.changes, List.flatMap_append, ← Section.changes, List.filter_append,
    List.flatMap_singleton, ofText_sampleEnvironment.2]
  cases part <;> exact List.append_nil _

theorem named_sample : Named sampleEnvironment where
  distinct := by decide +kernel
  unindexed := by
    intro v hv s hs part index path
    have hmem := List.mem_map_of_mem (f := fun v => variablePath? v.1) hv
    rw [paths_sampleEnvironment, hs] at hmem
    obtain ⟨hstop, hcolor⟩ := ofText_sampleEnvironment
    intro hpath
    rcases List.mem_cons.mp hmem with hs | hmem
    · cases hs
      rw [hstop] at hpath
      cases (List.cons.inj (List.cons.inj hpath).2).1
    · cases List.mem_singleton.mp hmem
      rw [hcolor] at hpath
      cases (List.cons.inj (List.cons.inj hpath).2).1
  keeps part := ⟨.inl (tabular_sample.1 part), trivial⟩

/-- An override, a variable, a value of the file, a default, and a default in the place of an item that is dropped. -/
theorem precedence_sample : ∃ file o, Loaded file sampleEnvironment ⟨some "b", none, none, none⟩ o ∧
    o.get .host = .text "b" ∧ o.get .stopBefore = .word32 50 ∧ o.get .port = .text "9" ∧
    o.get .initialDelay = .word64 500 ∧ o.get .startBlock = .word32 0 ∧
    ofLayers [] sampleEnvironment ⟨some "b", none, none, none⟩ =
      ofLayers [] [("SHIP_STREAM__STOP_BEFORE", "50")] ⟨some "b", none, none, none⟩ := by
  have hload : ((ofToml sampleText sampleEnvironment ⟨some "b", none, none, none⟩).toOption.map fun _ => ()) =
      some () := by decide +kernel
  have hlayer : ((Form.toml.layer? none sampleText).map fun file =>
      ([Section.node, .stream, .reconnect].map fun part => (part.changes file).map Prod.fst,
        (Setting.port.given file).map Value.scalar?)) =
      some ([[[.member "host"], [.member "port"]], [[]], []], [some (.integer 9)]) := by decide +kernel
  have hvariables : [Setting.host, .port, .startBlock, .stopBefore, .initialDelay].map
      (Setting.environmentText? sampleEnvironment) = [none, none, none, some "50", none] := by decide +kernel
  have hmember : (Section.stream.changes sampleEnvironment.layer).map Prod.fst = [[.member "stop_before"]] := by
    decide +kernel
  obtain ⟨file, hfile, hfacts⟩ := Option.map_eq_some_iff.mp hlayer
  obtain ⟨o, ho, -⟩ := exists_ok_of_toOption_map hload
  have hload := loaded_of_ofToml hfile ho
  obtain ⟨hpaths, hport⟩ := Prod.mk.inj hfacts
  simp only [List.map_cons, List.map_nil, List.cons.injEq, and_true] at hpaths hvariables
  obtain ⟨hnode, hstream, hreconnect⟩ := hpaths
  obtain ⟨-, hportVariable, hstartVariable, hstopVariable, hdelayVariable⟩ := hvariables
  obtain ⟨hget, -, hknown⟩ := precedence ⟨some "b", none, none, none⟩ named_sample
  have hhost := hget file o .host _ hload (.override rfl)
  have hstop := hget file o .stopBefore _ hload (.environment rfl hstopVariable)
  obtain ⟨v, hgiven, hv⟩ := List.map_eq_singleton_iff.mp hport
  have htabular : file.TabularIn Section.node :=
    .of_paths hnode (List.forall_mem_cons.mpr ⟨⟨_, _, rfl⟩, List.forall_mem_singleton.mpr ⟨_, _, rfl⟩⟩)
  have hkeeps : Section.node.Keeps [file, sampleEnvironment.layer] :=
    ⟨.inl htabular, ⟨.inl (tabular_sample.1 .node), trivial⟩⟩
  have hport := hget file o .port _ hload (.file rfl hportVariable hkeeps htabular.fromStart hgiven)
  have hchanges : Section.reconnect.changes file = [] := List.map_eq_nil_iff.mp hreconnect
  have hdelay := hget file o .initialDelay _ hload (.default rfl hdelayVariable
    (fun c hc => by rw [show Setting.initialDelay.part.changes file = [] from hchanges] at hc; cases hc)
    (by rw [Setting.given, show Setting.initialDelay.part.changes file = [] from hchanges]; rfl))
  have hwhole : file.WholeIn Section.stream := .of_paths hstream (by simp)
  have hdropped : ∃ c ∈ Section.stream.changes sampleEnvironment.layer, c.OfMember := by
    obtain ⟨c, hc, hpath⟩ := List.map_eq_singleton_iff.mp hmember
    rw [hc]
    exact ⟨c, List.mem_singleton_self c, "stop_before", [], c.2, Prod.ext hpath rfl⟩
  have hstart := hget file o .startBlock _ hload (.dropped rfl hstartVariable hwhole hdropped)
  have hsame := hknown [] [] [("SHIP_STREAM__STOP_BEFORE", "50")] Layer.tabular_nil Layer.tabular_nil
    tabular_sample.1 tabular_sample.2 fun part => ⟨rfl, known_sample part⟩
  rw [hv] at hport
  refine ⟨file, o, hload, ?_, ?_, ?_, ?_, ?_, hsame⟩
  · exact Option.some.inj (hhost.symm.trans (by decide +kernel))
  · exact Option.some.inj (hstop.symm.trans (by decide +kernel))
  · exact Option.some.inj (hport.symm.trans (by decide +kernel))
  · exact Option.some.inj (hdelay.symm.trans (by decide +kernel))
  · exact Option.some.inj (hstart.symm.trans (by decide +kernel))

end Sample

/-- Variables that lead to items of a section; a variable that leads to a member of a section which the file writes as
an array; and an empty table in the file. -/
theorem beside_names :
    (∃ o, ofToml "" [("SHIP_NODE[0]", "z"), ("SHIP_NODE[1]", "9")] ⟨none, none, none, none⟩ = .ok o ∧
      o.get .host = .text "z" ∧ o.get .port = .text "9") ∧
    (∀ t, Setting.environmentText? [("SHIP_NODE[0]", "z"), ("SHIP_NODE[1]", "9")] t = none) ∧
    (∃ o, ofToml "stream = [5, 100]\n" [] ⟨none, none, none, none⟩ = .ok o ∧ o.get .stopBefore = .word32 100) ∧
    (∃ o, ofToml "stream = [5, 100]\n" [("SHIP_STREAM__START_BLOCK", "7")] ⟨none, none, none, none⟩ = .ok o ∧
      o.get .startBlock = .word32 7 ∧ o.get .stopBefore = .word32 0) ∧
    ∃ o, ofToml "[node]\nhost = \x7b\x7d\n" [] ⟨none, none, none, none⟩ = .ok o ∧ o.get .host = .text "127.0.0.1" := by
  have hitems : ((ofToml "" [("SHIP_NODE[0]", "z"), ("SHIP_NODE[1]", "9")] ⟨none, none, none, none⟩).toOption.map
      fun o => (o.get .host, o.get .port)) = some (.text "z", .text "9") := by decide +kernel
  have harray : ((ofToml "stream = [5, 100]\n" [] ⟨none, none, none, none⟩).toOption.map
      fun o => o.get .stopBefore) = some (.word32 100) := by decide +kernel
  have hdropped : ((ofToml "stream = [5, 100]\n" [("SHIP_STREAM__START_BLOCK", "7")]
      ⟨none, none, none, none⟩).toOption.map fun o => (o.get .startBlock, o.get .stopBefore)) =
      some (.word32 7, .word32 0) := by decide +kernel
  have htable : ((ofToml "[node]\nhost = \x7b\x7d\n" [] ⟨none, none, none, none⟩).toOption.map
      fun o => o.get .host) = some (.text "127.0.0.1") := by decide +kernel
  obtain ⟨o, ho, hget⟩ := exists_ok_of_toOption_map hitems
  obtain ⟨hhost, hport⟩ := Prod.mk.inj hget
  obtain ⟨o', ho', hget'⟩ := exists_ok_of_toOption_map hdropped
  obtain ⟨hstart, hstop⟩ := Prod.mk.inj hget'
  refine ⟨⟨o, ho, hhost, hport⟩, fun t => ?_, exists_ok_of_toOption_map harray, ⟨o', ho', hstart, hstop⟩,
    exists_ok_of_toOption_map htable⟩
  cases t <;> decide +kernel

end Options

end StateHistory
