import Mathlib
import StateHistory.Frame
import StateHistory.Proofs.Binary.Numbers
import StateHistory.Proofs.Json.Exactness
import StateHistory.Proofs.Json.Record
import StateHistory.Proofs.Schema.Declaration

/-! # Texts of schema documents

Which texts write a document (`Document.WrittenIn`), and which spell a flawed one (`Kind.Flawed`). A node may write its
document in many ways, and it may say more than this library knows: all of that reads as the same document, and a flaw
is found wherever it is (`Document.read_whatever_its_spelling`).

Each kind of record has one lemma that says what is read (`ofTree?_eq_some_iff`); the flaws need it once for every kind
(`Kind.Reads.exists_values`), and what is written needs it the other way. -/

namespace StateHistory.Schema

open Json

variable {tree : Tree}

/-! ### What is read -/

theorem AliasDef.ofTree?_eq_some_iff {a : AliasDef} : ofTree? tree = some a ↔
    ∃ name target, tree.record? ["new_type_name", "type"] = some [name, target] ∧
      required Tree.string? name = some a.name ∧ required Tree.string? target = some a.target := by
  rw [ofTree?, Option.bind_eq_bind, Option.bind_eq_some_iff]
  constructor
  · rintro ⟨values, hvalues, h⟩
    split at h
    · simp only [Option.bind_eq_bind, Option.bind_eq_some_iff] at h
      obtain ⟨name, hname, target, htarget, h⟩ := h
      cases h
      exact ⟨_, _, hvalues, hname, htarget⟩
    · cases h
  · rintro ⟨name, target, hvalues, hname, htarget⟩
    refine ⟨_, hvalues, ?_⟩
    dsimp only
    rw [hname, htarget]
    rfl

theorem FieldDef.ofTree?_eq_some_iff {f : FieldDef} : ofTree? tree = some f ↔
    ∃ name type, tree.record? ["name", "type"] = some [name, type] ∧
      required Tree.string? name = some f.name ∧ required Tree.string? type = some f.type := by
  rw [ofTree?, Option.bind_eq_bind, Option.bind_eq_some_iff]
  constructor
  · rintro ⟨values, hvalues, h⟩
    split at h
    · simp only [Option.bind_eq_bind, Option.bind_eq_some_iff] at h
      obtain ⟨name, hname, type, htype, h⟩ := h
      cases h
      exact ⟨_, _, hvalues, hname, htype⟩
    · cases h
  · rintro ⟨name, type, hvalues, hname, htype⟩
    refine ⟨_, hvalues, ?_⟩
    dsimp only
    rw [hname, htype]
    rfl

theorem StructDef.ofTree?_eq_some_iff {s : StructDef} : ofTree? tree = some s ↔
    ∃ name base fields, tree.record? ["name", "base", "fields"] = some [name, base, fields] ∧
      required Tree.string? name = some s.name ∧ orDefault "" Tree.string? base = some s.base ∧
      orDefault [] (Tree.list? FieldDef.ofTree?) fields = some s.fields := by
  rw [ofTree?, Option.bind_eq_bind, Option.bind_eq_some_iff]
  constructor
  · rintro ⟨values, hvalues, h⟩
    split at h
    · simp only [Option.bind_eq_bind, Option.bind_eq_some_iff] at h
      obtain ⟨name, hname, base, hbase, fields, hfields, h⟩ := h
      cases h
      exact ⟨_, _, _, hvalues, hname, hbase, hfields⟩
    · cases h
  · rintro ⟨name, base, fields, hvalues, hname, hbase, hfields⟩
    refine ⟨_, hvalues, ?_⟩
    dsimp only
    rw [hname, hbase, hfields]
    rfl

theorem VariantDef.ofTree?_eq_some_iff {v : VariantDef} : ofTree? tree = some v ↔
    ∃ name cases, tree.record? ["name", "types"] = some [name, cases] ∧
      required Tree.string? name = some v.name ∧ orDefault [] (Tree.list? Tree.string?) cases = some v.cases := by
  rw [ofTree?, Option.bind_eq_bind, Option.bind_eq_some_iff]
  constructor
  · rintro ⟨values, hvalues, h⟩
    split at h
    · simp only [Option.bind_eq_bind, Option.bind_eq_some_iff] at h
      obtain ⟨name, hname, types, htypes, h⟩ := h
      cases h
      exact ⟨_, _, hvalues, hname, htypes⟩
    · cases h
  · rintro ⟨name, types, hvalues, hname, htypes⟩
    refine ⟨_, hvalues, ?_⟩
    dsimp only
    rw [hname, htypes]
    rfl

theorem TableDef.ofTree?_eq_some_iff {t : TableDef} : ofTree? tree = some t ↔
    ∃ name type keyNames, tree.record? ["name", "type", "key_names"] = some [name, type, keyNames] ∧
      orDefault "" Tree.string? name = some t.name ∧ orDefault "" Tree.string? type = some t.type ∧
      orDefault [] (Tree.list? Tree.string?) keyNames = some t.keyNames := by
  rw [ofTree?, Option.bind_eq_bind, Option.bind_eq_some_iff]
  constructor
  · rintro ⟨values, hvalues, h⟩
    split at h
    · simp only [Option.bind_eq_bind, Option.bind_eq_some_iff] at h
      obtain ⟨name, hname, type, htype, keyNames, hkeyNames, h⟩ := h
      cases h
      exact ⟨_, _, _, hvalues, hname, htype, hkeyNames⟩
    · cases h
  · rintro ⟨name, type, keyNames, hvalues, hname, htype, hkeyNames⟩
    refine ⟨_, hvalues, ?_⟩
    dsimp only
    rw [hname, htype, hkeyNames]
    rfl

theorem Document.ofTree?_eq_some_iff {d : Document} : ofTree? tree = some d ↔
    ∃ version aliases structs variants tables,
      tree.record? ["version", "types", "structs", "variants", "tables"] =
        some [version, aliases, structs, variants, tables] ∧
      required Tree.string? version = some d.version ∧
      orDefault [] (Tree.list? AliasDef.ofTree?) aliases = some d.aliases ∧
      orDefault [] (Tree.list? StructDef.ofTree?) structs = some d.structs ∧
      orDefault [] (Tree.list? VariantDef.ofTree?) variants = some d.variants ∧
      orDefault [] (Tree.list? TableDef.ofTree?) tables = some d.tables := by
  rw [ofTree?, Option.bind_eq_bind, Option.bind_eq_some_iff]
  constructor
  · rintro ⟨values, hvalues, h⟩
    split at h
    · simp only [Option.bind_eq_bind, Option.bind_eq_some_iff] at h
      obtain ⟨version, hversion, aliases, haliases, structs, hstructs, variants, hvariants, tables, htables, h⟩ := h
      cases h
      exact ⟨_, _, _, _, _, hvalues, hversion, haliases, hstructs, hvariants, htables⟩
    · cases h
  · rintro ⟨version, aliases, structs, variants, tables, hvalues, hversion, haliases, hstructs, hvariants, htables⟩
    refine ⟨_, hvalues, ?_⟩
    dsimp only
    rw [hversion, haliases, hstructs, hvariants, htables]
    rfl

/-! ### What cannot be read -/

/-- The kinds of records that a document consists of. -/
inductive Kind where
  | document
  | synonym
  | struct
  | field
  | variant
  | table

namespace Kind

variable {kind inner : Kind} {name : String} {items : List Tree} {item : Tree}

/-- The members of a record, in the order of their declaration. -/
def names : Kind → List String
  | document => ["version", "types", "structs", "variants", "tables"]
  | synonym => ["new_type_name", "type"]
  | struct => ["name", "base", "fields"]
  | field => ["name", "type"]
  | variant => ["name", "types"]
  | table => ["name", "type", "key_names"]

/-- The members without which there is no record. -/
def needed : Kind → List String
  | document => ["version"]
  | synonym => ["new_type_name", "type"]
  | struct => ["name"]
  | field => ["name", "type"]
  | variant => ["name"]
  | table => []

/-- The members that list records, and the kind of these. -/
def lists : Kind → List (String × Kind)
  | document => [("types", synonym), ("structs", struct), ("variants", variant), ("tables", table)]
  | struct => [("fields", field)]
  | _ => []

theorem nodup_names (kind : Kind) : kind.names.Nodup := by
  cases kind <;> decide

/-- Whether a record of a kind can be read from a tree. -/
def Reads (tree : Tree) : Kind → Prop
  | document => ∃ d, Document.ofTree? tree = some d
  | synonym => ∃ a, AliasDef.ofTree? tree = some a
  | struct => ∃ s, StructDef.ofTree? tree = some s
  | field => ∃ f, FieldDef.ofTree? tree = some f
  | variant => ∃ v, VariantDef.ofTree? tree = some v
  | table => ∃ t, TableDef.ofTree? tree = some t

/-- A record that repeats one of its members, lacks one that it needs, or lists a record that is flawed itself. -/
inductive Flawed : Kind → Tree → Prop
  | repeats {kind : Kind} {tree : Tree} {name : String} (hname : name ∈ kind.names) (h : tree.Repeats name) :
      Flawed kind tree
  | lacks {kind : Kind} {tree : Tree} {name : String} (hname : name ∈ kind.needed)
      (h : ∀ value, ¬ tree.Has kind.names name value) : Flawed kind tree
  | inside {kind inner : Kind} {tree item : Tree} {name : String} {items : List Tree}
      (hlist : (name, inner) ∈ kind.lists) (hhas : tree.Has kind.names name (.array items)) (hitem : item ∈ items)
      (h : Flawed inner item) : Flawed kind tree

theorem exists_of_required {α : Type} {read : Tree → Option α} {member : Option Tree} {a : α}
    (h : required read member = some a) : ∃ value, member = some value := by
  obtain ⟨value, hvalue, -⟩ := Option.bind_eq_some_iff.mp h
  exact ⟨value, hvalue⟩

theorem exists_of_list {α : Type} {read : Tree → Option α} {as : List α}
    (h : orDefault [] (Tree.list? read) (some (.array items)) = some as) (hitem : item ∈ items) :
    ∃ a, read item = some a :=
  exists_of_mapM_eq_some h hitem

/-- What a record that is read is made of. -/
theorem Reads.exists_values (h : kind.Reads tree) : ∃ values, tree.record? kind.names = some values ∧
    (∀ name ∈ kind.needed, ∃ value, (name, some value) ∈ kind.names.zip values) ∧
    ∀ name inner items, (name, inner) ∈ kind.lists → (name, some (.array items)) ∈ kind.names.zip values →
      ∀ item ∈ items, inner.Reads item := by
  cases kind with
  | document =>
      obtain ⟨d, hd⟩ := h
      obtain ⟨version, aliases, structs, variants, tables, hvalues, hversion, haliases, hstructs, hvariants, htables⟩ :=
        Document.ofTree?_eq_some_iff.mp hd
      obtain ⟨v, rfl⟩ := exists_of_required hversion
      refine ⟨_, hvalues, by simp [needed, names], fun name inner items hlist hmem item hitem => ?_⟩
      simp only [lists, List.mem_cons, Prod.mk.injEq, List.not_mem_nil, or_false] at hlist
      rcases hlist with ⟨rfl, rfl⟩ | ⟨rfl, rfl⟩ | ⟨rfl, rfl⟩ | ⟨rfl, rfl⟩
      · obtain rfl : some (.array items) = aliases := by simpa [names] using hmem
        exact exists_of_list haliases hitem
      · obtain rfl : some (.array items) = structs := by simpa [names] using hmem
        exact exists_of_list hstructs hitem
      · obtain rfl : some (.array items) = variants := by simpa [names] using hmem
        exact exists_of_list hvariants hitem
      · obtain rfl : some (.array items) = tables := by simpa [names] using hmem
        exact exists_of_list htables hitem
  | synonym =>
      obtain ⟨a, ha⟩ := h
      obtain ⟨name, target, hvalues, hname, htarget⟩ := AliasDef.ofTree?_eq_some_iff.mp ha
      obtain ⟨v, rfl⟩ := exists_of_required hname
      obtain ⟨w, rfl⟩ := exists_of_required htarget
      exact ⟨_, hvalues, by simp [needed, names], fun _ _ _ hlist => nomatch hlist⟩
  | struct =>
      obtain ⟨s, hs⟩ := h
      obtain ⟨name, base, fields, hvalues, hname, -, hfields⟩ := StructDef.ofTree?_eq_some_iff.mp hs
      obtain ⟨v, rfl⟩ := exists_of_required hname
      refine ⟨_, hvalues, by simp [needed, names], fun name inner items hlist hmem item hitem => ?_⟩
      simp only [lists, List.mem_singleton, Prod.mk.injEq] at hlist
      obtain ⟨rfl, rfl⟩ := hlist
      obtain rfl : some (.array items) = fields := by simpa [names] using hmem
      exact exists_of_list hfields hitem
  | field =>
      obtain ⟨f, hf⟩ := h
      obtain ⟨name, type, hvalues, hname, htype⟩ := FieldDef.ofTree?_eq_some_iff.mp hf
      obtain ⟨v, rfl⟩ := exists_of_required hname
      obtain ⟨w, rfl⟩ := exists_of_required htype
      exact ⟨_, hvalues, by simp [needed, names], fun _ _ _ hlist => nomatch hlist⟩
  | variant =>
      obtain ⟨v, hv⟩ := h
      obtain ⟨name, cases, hvalues, hname, -⟩ := VariantDef.ofTree?_eq_some_iff.mp hv
      obtain ⟨v, rfl⟩ := exists_of_required hname
      exact ⟨_, hvalues, by simp [needed, names], fun _ _ _ hlist => nomatch hlist⟩
  | table =>
      obtain ⟨t, ht⟩ := h
      obtain ⟨name, type, keyNames, hvalues, -⟩ := TableDef.ofTree?_eq_some_iff.mp ht
      exact ⟨_, hvalues, by simp [needed], fun _ _ _ hlist => nomatch hlist⟩

theorem Flawed.not_reads (h : kind.Flawed tree) : ¬ kind.Reads tree := by
  induction h with
  | repeats hname h =>
      intro hreads
      obtain ⟨values, hvalues, -⟩ := hreads.exists_values
      rw [Tree.record?_eq_none_of_repeats hname h] at hvalues
      cases hvalues
  | lacks hname h =>
      intro hreads
      obtain ⟨values, hvalues, hneeded, -⟩ := hreads.exists_values
      obtain ⟨value, hvalue⟩ := hneeded _ hname
      exact h value ((Tree.has_iff_of_record? hvalues).mpr hvalue)
  | inside hlist hhas hitem _ ih =>
      intro hreads
      obtain ⟨values, hvalues, -, hlists⟩ := hreads.exists_values
      exact ih (hlists _ _ _ hlist ((Tree.has_iff_of_record? hvalues).mp hhas) _ hitem)

end Kind

/-! ### Writing documents -/

/-- A text as the value of a member. -/
def TextOf (s : String) (value : Tree) : Prop := value = .text (some s)

/-- A list, item by item. -/
def ListOf {α : Type} (WrittenAs : α → Tree → Prop) (as : List α) (value : Tree) : Prop :=
  ∃ items, value = .array items ∧ List.Forall₂ WrittenAs as items

/-- A member that may be left out if it has its default value. -/
def OrLeftOut {α : Type} (default : α) (WrittenAs : α → Tree → Prop) (a : α) (member : Option Tree) : Prop :=
  (∃ value, member = some value ∧ WrittenAs a value) ∨ (member = none ∧ a = default)

/-- An object that writes an alias. -/
def AliasDef.WrittenAs (a : AliasDef) (tree : Tree) : Prop :=
  Writes [("new_type_name", some (.text (some a.name))), ("type", some (.text (some a.target)))] tree

/-- An object that writes a field. -/
def FieldDef.WrittenAs (f : FieldDef) (tree : Tree) : Prop :=
  Writes [("name", some (.text (some f.name))), ("type", some (.text (some f.type)))] tree

/-- An object that writes a struct. -/
def StructDef.WrittenAs (s : StructDef) (tree : Tree) : Prop :=
  ∃ base fields, Writes [("name", some (.text (some s.name))), ("base", base), ("fields", fields)] tree ∧
    OrLeftOut "" TextOf s.base base ∧ OrLeftOut [] (ListOf FieldDef.WrittenAs) s.fields fields

/-- An object that writes a variant. -/
def VariantDef.WrittenAs (v : VariantDef) (tree : Tree) : Prop :=
  ∃ cases, Writes [("name", some (.text (some v.name))), ("types", cases)] tree ∧
    OrLeftOut [] (ListOf TextOf) v.cases cases

/-- An object that writes a table. -/
def TableDef.WrittenAs (t : TableDef) (tree : Tree) : Prop :=
  ∃ name type keyNames, Writes [("name", name), ("type", type), ("key_names", keyNames)] tree ∧
    OrLeftOut "" TextOf t.name name ∧ OrLeftOut "" TextOf t.type type ∧
    OrLeftOut [] (ListOf TextOf) t.keyNames keyNames

/-- An object that writes a document. -/
def Document.WrittenAs (d : Document) (tree : Tree) : Prop :=
  ∃ aliases structs variants tables,
    Writes [("version", some (.text (some d.version))), ("types", aliases), ("structs", structs),
      ("variants", variants), ("tables", tables)] tree ∧
    OrLeftOut [] (ListOf AliasDef.WrittenAs) d.aliases aliases ∧
    OrLeftOut [] (ListOf StructDef.WrittenAs) d.structs structs ∧
    OrLeftOut [] (ListOf VariantDef.WrittenAs) d.variants variants ∧
    OrLeftOut [] (ListOf TableDef.WrittenAs) d.tables tables

/-- A text that writes a document. -/
def Document.WrittenIn (d : Document) (text : String) : Prop := ∃ tree : Tree, tree.SpelledBy text ∧ d.WrittenAs tree

section Reading

variable {α : Type} {default a : α} {as : List α} {WrittenAs : α → Tree → Prop} {read : Tree → Option α}
  {member : Option Tree} {value : Tree}

theorem TextOf.string?_eq {s : String} (h : TextOf s value) : value.string? = some s := by
  subst h
  rfl

theorem ListOf.list?_eq (h : ListOf WrittenAs as value) (hread : ∀ a tree, WrittenAs a tree → read tree = some a) :
    value.list? read = some as := by
  obtain ⟨items, rfl, hitems⟩ := h
  exact mapM_eq_some_iff.mpr (hitems.imp hread).flip

theorem OrLeftOut.orDefault_eq (h : OrLeftOut default WrittenAs a member)
    (hread : ∀ a tree, WrittenAs a tree → read tree = some a) : orDefault default read member = some a := by
  rcases h with ⟨value, rfl, hvalue⟩ | ⟨rfl, rfl⟩
  · exact hread a value hvalue
  · rfl

/-- A list that may be left out. -/
theorem OrLeftOut.list_eq (h : OrLeftOut [] (ListOf WrittenAs) as member)
    (hread : ∀ a tree, WrittenAs a tree → read tree = some a) : orDefault [] (Tree.list? read) member = some as :=
  h.orDefault_eq fun _ _ hlist => hlist.list?_eq hread

end Reading

theorem AliasDef.WrittenAs.ofTree?_eq (a : AliasDef) (tree : Tree) (h : a.WrittenAs tree) : ofTree? tree = some a :=
  ofTree?_eq_some_iff.mpr ⟨_, _, h.record?_eq (Kind.nodup_names .synonym), rfl, rfl⟩

theorem FieldDef.WrittenAs.ofTree?_eq (f : FieldDef) (tree : Tree) (h : f.WrittenAs tree) : ofTree? tree = some f :=
  ofTree?_eq_some_iff.mpr ⟨_, _, h.record?_eq (Kind.nodup_names .field), rfl, rfl⟩

theorem StructDef.WrittenAs.ofTree?_eq (s : StructDef) (tree : Tree) (h : s.WrittenAs tree) :
    ofTree? tree = some s := by
  obtain ⟨base, fields, hwrites, hbase, hfields⟩ := h
  exact ofTree?_eq_some_iff.mpr ⟨_, _, _, hwrites.record?_eq (Kind.nodup_names .struct), rfl,
    hbase.orDefault_eq fun _ _ => TextOf.string?_eq, hfields.list_eq FieldDef.WrittenAs.ofTree?_eq⟩

theorem VariantDef.WrittenAs.ofTree?_eq (v : VariantDef) (tree : Tree) (h : v.WrittenAs tree) :
    ofTree? tree = some v := by
  obtain ⟨cases, hwrites, hcases⟩ := h
  exact ofTree?_eq_some_iff.mpr ⟨_, _, hwrites.record?_eq (Kind.nodup_names .variant), rfl,
    hcases.list_eq fun _ _ => TextOf.string?_eq⟩

theorem TableDef.WrittenAs.ofTree?_eq (t : TableDef) (tree : Tree) (h : t.WrittenAs tree) : ofTree? tree = some t := by
  obtain ⟨name, type, keyNames, hwrites, hname, htype, hkeyNames⟩ := h
  exact ofTree?_eq_some_iff.mpr ⟨_, _, _, hwrites.record?_eq (Kind.nodup_names .table),
    hname.orDefault_eq fun _ _ => TextOf.string?_eq, htype.orDefault_eq fun _ _ => TextOf.string?_eq,
    hkeyNames.list_eq fun _ _ => TextOf.string?_eq⟩

theorem Document.WrittenAs.ofTree?_eq {d : Document} (h : d.WrittenAs tree) : ofTree? tree = some d := by
  obtain ⟨aliases, structs, variants, tables, hwrites, haliases, hstructs, hvariants, htables⟩ := h
  exact ofTree?_eq_some_iff.mpr ⟨_, _, _, _, _, hwrites.record?_eq (Kind.nodup_names .document), rfl,
    haliases.list_eq AliasDef.WrittenAs.ofTree?_eq, hstructs.list_eq StructDef.WrittenAs.ofTree?_eq,
    hvariants.list_eq VariantDef.WrittenAs.ofTree?_eq, htables.list_eq TableDef.WrittenAs.ofTree?_eq⟩

/-! ### Texts -/

theorem parseSchema_ofText (text : String) :
    Frame.parseSchema (Bytes.ofText text) = (Document.parse text).bind Frame.catalogOf := by
  rw [Frame.parseSchema, Bytes.toText?_eq_some_iff.mpr rfl]
  rfl

/-- A schema document is read whatever its spelling. Every text that writes it, with the members of its records in any
order, those of a default value left out at will and unknown ones among them, is read as this document, and makes the
catalog of this document. Of a text that spells a flawed document nothing is read. -/
theorem Document.read_whatever_its_spelling (text : String) :
    (∀ d : Document, d.WrittenIn text →
      Document.parse text = .ok d ∧ Frame.parseSchema (Bytes.ofText text) = Frame.catalogOf d) ∧
    (∀ tree : Tree, tree.SpelledBy text → Kind.document.Flawed tree →
      Document.parse text = .error .malformedSchema ∧
      Frame.parseSchema (Bytes.ofText text) = .error .malformedSchema) := by
  rw [parseSchema_ofText]
  constructor
  · rintro d ⟨tree, hspelled, hwritten⟩
    have hparse : Document.parse text = .ok d := by
      rw [Document.parse, Tree.parse?_of_spelledBy hspelled, Option.bind_some, hwritten.ofTree?_eq]
    rw [hparse]
    exact ⟨rfl, rfl⟩
  · intro tree hspelled hflawed
    have hnone : Document.ofTree? tree = none :=
      Option.eq_none_iff_forall_ne_some.mpr fun d hd => hflawed.not_reads ⟨d, hd⟩
    have hparse : Document.parse text = .error .malformedSchema := by
      rw [Document.parse, Tree.parse?_of_spelledBy hspelled, Option.bind_some, hnone]
    rw [hparse]
    exact ⟨rfl, rfl⟩

/-- Blanks, an escaped key, members in another order, some left out, and unknown ones on every level. -/
def loosely : String :=
  "\x7b\"structs\" : [\x7b\"x\":\x7b\"name\":[null]\x7d, "
    ++ "\"fields\":[\x7b\"type\":\"name\",\"name\":\"a\",\"z\":-1.5e2\x7d], \"name\":\"s\"\x7d],\n\t"
    ++ "\"ver\\u0073ion\":\"eosio::abi\\/1.1\", \"more\":[\x7b\"version\":1,\"version\":2\x7d] \x7d"

/-- An alias with its type twice, the second time with an escape in the key. -/
def twice : String :=
  "\x7b\"version\":\"eosio::abi/1.1\","
    ++ "\"types\":[\x7b\"new_type_name\":\"a\",\"type\":\"b\",\"t\\u0079pe\":\"b\"\x7d]\x7d"

/-- A document whose one struct has one field. -/
def oneStruct : Document := ⟨"eosio::abi/1.1", [], [⟨"s", "", [⟨"a", "name"⟩]⟩], [], []⟩

theorem oneStruct_writtenIn : oneStruct.WrittenIn loosely := by
  have hparse : Tree.parse? loosely = some (.object [
      (some "structs", .array [.object [(some "x", .object [(some "name", .array [.null])]),
        (some "fields", .array [.object [(some "type", .text (some "name")), (some "name", .text (some "a")),
          (some "z", .numeral ⟨true, 15, 1, false⟩)]]),
        (some "name", .text (some "s"))]]),
      (some "version", .text (some "eosio::abi/1.1")),
      (some "more", .array [.object [(some "version", .numeral ⟨false, 1, 0, true⟩),
        (some "version", .numeral ⟨false, 2, 0, true⟩)]])]) := by
    cbv
  have hfield : FieldDef.WrittenAs ⟨"a", "name"⟩ (.object [(some "type", .text (some "name")),
      (some "name", .text (some "a")), (some "z", .numeral ⟨true, 15, 1, false⟩)]) :=
    ⟨_, [_], rfl, .swap _ _ _, by simp⟩
  refine ⟨_, Tree.parse?_eq_some_iff.mp hparse, none, some _, none, none, ⟨_, [_], rfl, .swap _ _ _, by simp⟩,
    .inr ⟨rfl, rfl⟩, .inl ⟨_, rfl, _, rfl, .cons ?_ .nil⟩, .inr ⟨rfl, rfl⟩, .inr ⟨rfl, rfl⟩⟩
  exact ⟨none, some _, ⟨_, [_], rfl, List.reverse_perm [_, _, _], by simp⟩, .inr ⟨rfl, rfl⟩,
    .inl ⟨_, rfl, _, rfl, .cons hfield .nil⟩⟩

theorem twice_flawed : ∃ tree : Tree, tree.SpelledBy twice ∧ Kind.document.Flawed tree := by
  have hparse : Tree.parse? twice = some (.object [(some "version", .text (some "eosio::abi/1.1")),
      (some "types", .array [.object [(some "new_type_name", .text (some "a")), (some "type", .text (some "b")),
        (some "type", .text (some "b"))]])]) := by
    cbv
  have hlist : ("types", Kind.synonym) ∈ Kind.document.lists := List.mem_cons_self ..
  have hname : "type" ∈ Kind.synonym.names := by decide
  refine ⟨_, Tree.parse?_eq_some_iff.mp hparse, .inside hlist
    ⟨by decide, List.mem_cons_of_mem _ (List.mem_singleton_self _)⟩ (List.mem_singleton_self _) ?_⟩
  exact .repeats hname ⟨_, _, _, rfl, List.sublist_cons_self _ _⟩

theorem Document.read_loosely : oneStruct.WrittenIn loosely ∧ Document.parse loosely = .ok oneStruct ∧
    (∃ tree : Tree, tree.SpelledBy twice ∧ Kind.document.Flawed tree) ∧
    Document.parse twice = .error .malformedSchema := by
  obtain ⟨tree, hspelled, hflawed⟩ := twice_flawed
  exact ⟨oneStruct_writtenIn, ((read_whatever_its_spelling loosely).1 _ oneStruct_writtenIn).1, twice_flawed,
    ((read_whatever_its_spelling twice).2 _ hspelled hflawed).1⟩

end StateHistory.Schema
