import Mathlib.Logic.Relation
import StateHistory.Proofs.Binary.Recognition
import StateHistory.Proofs.Schema.Acceptance
import StateHistory.Schema.Decoding

/-! # The grammar of a schema

A catalog is a grammar: `Catalog.Encodes` says which byte strings encode which values of a type, without
mentioning a reader of anything but builtin types. A value that is marked with `$` has no encoding of its
own, since what it is depends on what follows; a type from which no such value can be reached
(`Catalog.Extensionless`) is read exactly as its grammar says (`recognizes_readWithin`). -/

namespace StateHistory

/-- Whether `$` is among the modifiers of a reference. -/
def TypeRef.hasExtension : TypeRef → Bool
  | named _ => false
  | optional inner => inner.hasExtension
  | array inner => inner.hasExtension
  | extension _ => true

namespace Schema.Catalog

variable {c : Catalog}

/-! ### Encodings -/

mutual

/-- The byte strings that encode a value of a type inside of `depth` others. -/
inductive Encodes (c : Catalog) : (depth : Nat) → TypeRef → Bytes → Json → Prop
  | absent {depth : Nat} {inner : TypeRef} : depth < maxLevels → Encodes c depth (.optional inner) [0] .null
  | present {depth : Nat} {inner : TypeRef} {w : Bytes} {v : Json} : depth < maxLevels →
      Encodes c (depth + 1) inner w v → Encodes c depth (.optional inner) (1 :: w) v
  | array {depth : Nat} {inner : TypeRef} {count : Bytes} {n : UInt32} {items : List (Bytes × Json)} :
      depth < maxLevels → Decoder.varuint32.run count = .ok n [] → items.length = n.toNat →
      (∀ item ∈ items, Encodes c (depth + 1) inner item.1 item.2) →
      Encodes c depth (.array inner) (count ++ (items.map Prod.fst).flatten) (.array (items.map Prod.snd))
  | named {depth : Nat} {name : String} {layout : Layout} {w : Bytes} {v : Json} : depth < maxLevels →
      c.find? name = some layout → LaidOut c depth layout w v → Encodes c depth (.named name) w v

/-- The byte strings that encode a value of a layout. -/
inductive LaidOut (c : Catalog) : (depth : Nat) → Layout → Bytes → Json → Prop
  | builtin {depth : Nat} {type : Builtin} {w : Bytes} {v : Json} : type.decoder.run w = .ok v [] →
      LaidOut c depth (.builtin type) w v
  | alias {depth : Nat} {target : TypeRef} {w : Bytes} {v : Json} : Encodes c (depth + 1) target w v →
      LaidOut c depth (.alias target) w v
  | struct {depth : Nat} {members : List (Field × Bytes × Json)} :
      (∀ m ∈ members, Encodes c (depth + 1) m.1.type m.2.1 m.2.2) →
      LaidOut c depth (.struct (members.map fun m => m.1)) (members.map fun m => m.2.1).flatten
        (Json.ofMembers (members.map fun m => (m.1.name, m.2.2)))
  | variant {depth : Nat} {cases : List TypeRef} {index : Bytes} {tag : UInt32} {case : TypeRef} {w : Bytes}
      {v : Json} : Decoder.varuint32.run index = .ok tag [] → cases[tag.toNat]? = some case →
      Encodes c (depth + 1) case w v →
      LaidOut c depth (.variant cases) (index ++ w) (.array [.string case.render, v])

end

theorem Encodes.depth_lt {depth : Nat} {t : TypeRef} {w : Bytes} {v : Json} (h : c.Encodes depth t w v) :
    depth < maxLevels := by
  cases h <;> assumption

/-! ### Types without `$` -/

/-- What a type is made of: below a modifier, behind an alias, in a field or in a case. -/
inductive RefersTo (c : Catalog) : TypeRef → TypeRef → Prop
  | optional {inner : TypeRef} : RefersTo c (.optional inner) inner
  | array {inner : TypeRef} : RefersTo c (.array inner) inner
  | extension {inner : TypeRef} : RefersTo c (.extension inner) inner
  | named {name : String} {layout : Layout} {t : TypeRef} : c.find? name = some layout →
      t ∈ layout.references → RefersTo c (.named name) t

/-- Nothing that is marked with `$` can be reached from a type. -/
def Extensionless (c : Catalog) (t : TypeRef) : Prop :=
  ∀ u, Relation.ReflTransGen c.RefersTo t u → u.isExtension = false

theorem Extensionless.isExtension {t : TypeRef} (h : c.Extensionless t) : t.isExtension = false :=
  h t .refl

theorem Extensionless.of_refersTo {t u : TypeRef} (h : c.Extensionless t) (hu : c.RefersTo t u) :
    c.Extensionless u :=
  fun _ hpath => h _ (hpath.head hu)

/-- Nothing is marked with `$` under the catalog of a document without it. -/
theorem extensionless_of_references {d : Document} (h : ofDocument d = .ok c)
    (hreferences : ∀ type ∈ d.references, (TypeRef.parse type).hasExtension = false) {t : TypeRef}
    (ht : t.hasExtension = false) : c.Extensionless t := by
  have hnames := (wellFormed_of_ofDocument h).toWellNamed
  have keep : ∀ {u u' : TypeRef}, c.RefersTo u u' → u.hasExtension = false → u'.hasExtension = false := by
    intro u u' hu hplain
    cases hu with
    | optional => exact hplain
    | array => exact hplain
    | extension => cases hplain
    | named hfind hmem =>
        have hdeclares := ((typesOf_ofDocument h).find?_eq_some_iff hnames).mp hfind
        obtain ⟨type, htype, rfl⟩ := hdeclares.exists_reference hnames hmem
        exact hreferences type htype
  intro u hpath
  have hu : u.hasExtension = false := by
    induction hpath with
    | refl => exact ht
    | tail _ hstep ih => exact keep hstep ih
  cases u <;> first | rfl | cases hu

/-! ### Fields -/

theorem readFields_cons {read : TypeRef → Decoder Json} {field : Field} {fields : List Field}
    {members : List (String × Json)} (h : field.type.isExtension = false) :
    readFields read (field :: fields) members =
      (read field.type >>= fun value => readFields read fields (Json.insertMember field.name value members)) := by
  rw [readFields, h]
  simp only [Bool.false_and, Bool.false_eq_true, if_false, Decoder.atEnd_bind]

/-- Fields are read one after the other, and become the members of an object. -/
theorem recognizes_readFields {read : TypeRef → Decoder Json} {G : TypeRef → Bytes → Json → Prop}
    (fields : List Field) (hplain : ∀ f ∈ fields, f.type.isExtension = false)
    (hread : ∀ f ∈ fields, (read f.type).Recognizes (G f.type)) (before : List (String × Json)) :
    (readFields read fields before).Recognizes fun w after => ∃ members : List (Field × Bytes × Json),
      (members.map fun m => m.1) = fields ∧ (∀ m ∈ members, G m.1.type m.2.1 m.2.2) ∧
        w = (members.map fun m => m.2.1).flatten ∧
        after = (members.map fun m => (m.1.name, m.2.2)).foldl (fun ms m => Json.insertMember m.1 m.2 ms) before := by
  induction fields generalizing before with
  | nil =>
      refine (Decoder.Recognizes.pure before).of_iff fun w after => ?_
      simp only [List.map_eq_nil_iff, exists_eq_left]
      simp
  | cons field fields ih =>
      obtain ⟨hfield, hfields⟩ := List.forall_mem_cons.mp hplain
      obtain ⟨hfirst, hrest⟩ := List.forall_mem_cons.mp hread
      rw [readFields_cons hfield]
      refine (hfirst.bind fun v => ih hfields hrest _).of_iff fun w after => ?_
      constructor
      · rintro ⟨v, w₁, _, rfl, hw₁, members, rfl, hmembers, rfl, rfl⟩
        exact ⟨(field, w₁, v) :: members, rfl, List.forall_mem_cons.mpr ⟨hw₁, hmembers⟩, rfl, rfl⟩
      · rintro ⟨_ | ⟨⟨_, w₁, v⟩, members⟩, hnames, hmembers, rfl, rfl⟩
        · cases hnames
        · obtain ⟨rfl, rfl⟩ := List.cons.inj hnames
          obtain ⟨hw₁, hmembers⟩ := List.forall_mem_cons.mp hmembers
          exact ⟨v, w₁, _, rfl, hw₁, members, rfl, hmembers, rfl, rfl⟩

/-! ### Reading and encoding -/

/-- A value of a named type is read as its layout says. -/
theorem recognizes_layout {levels depth : Nat} {name : String} {layout : Layout}
    (hfind : c.find? name = some layout) (hplain : ∀ u ∈ layout.references, u.isExtension = false)
    (inside : ∀ u ∈ layout.references, (c.readWithin levels u).Recognizes (c.Encodes (depth + 1) u)) :
    (c.readWithin (levels + 1) (.named name)).Recognizes (c.LaidOut depth layout) := by
  rw [readWithin, hfind]
  cases layout with
  | builtin type =>
      refine type.plain_decoder.recognizes.of_iff fun w v => ⟨.builtin, fun h => ?_⟩
      cases h with
      | builtin hw => exact hw
  | «alias» target =>
      refine (inside target (List.mem_singleton_self _)).of_iff fun w v => ⟨.alias, fun h => ?_⟩
      cases h with
      | «alias» hw => exact hw
  | struct fields =>
      have hfields := recognizes_readFields fields (fun f hf => hplain _ (List.mem_map_of_mem hf))
        (fun f hf => inside _ (List.mem_map_of_mem hf)) []
      refine (hfields.map Json.object).of_iff fun w v => ⟨?_, fun h => ?_⟩
      · rintro ⟨_, ⟨members, rfl, hmembers, rfl, rfl⟩, rfl⟩
        exact .struct hmembers
      · cases h with
        | struct hmembers => exact ⟨_, ⟨_, rfl, hmembers, rfl, rfl⟩, rfl⟩
  | variant cases =>
      refine (Decoder.plain_varuint32.recognizes.bind (H := fun tag w v => ∃ case v',
        cases[tag.toNat]? = some case ∧ c.Encodes (depth + 1) case w v' ∧
          v = .array [.string case.render, v']) fun tag => ?_).of_iff fun w v => ⟨?_, fun h => ?_⟩
      · split
        · rename_i hnone
          exact (Decoder.Recognizes.throw _).of_iff fun w v => by simp [hnone]
        · rename_i case hcase
          have hvalue := inside case (List.mem_of_getElem? hcase)
          refine (hvalue.map fun v => Json.array [.string case.render, v]).of_iff fun w v => ?_
          simp [hcase]
      · rintro ⟨tag, index, w, rfl, hindex, case, v', hcase, hw, rfl⟩
        exact .variant hindex hcase hw
      · cases h with
        | variant hindex hcase hw => exact ⟨_, _, _, rfl, hindex, _, _, hcase, hw, rfl⟩

/-- With levels left for all depths below the limit, a reader recognizes the encodings of its type. -/
theorem recognizes_readWithin {levels depth : Nat} (hlevels : depth + levels = maxLevels) {t : TypeRef}
    (ht : c.Extensionless t) : (c.readWithin levels t).Recognizes (c.Encodes depth t) := by
  induction levels generalizing depth t with
  | zero =>
      refine (Decoder.Recognizes.throw _).of_iff fun w v => ⟨False.elim, fun h => ?_⟩
      exact absurd h.depth_lt (by omega)
  | succ levels ih =>
      have hroom : depth < maxLevels := by omega
      have inside : ∀ {u}, c.RefersTo t u → (c.readWithin levels u).Recognizes (c.Encodes (depth + 1) u) :=
        fun hu => ih (by omega) (ht.of_refersTo hu)
      cases t with
      | optional inner =>
          refine ((inside .optional).flagged .null).of_iff fun w v => ⟨?_, ?_⟩
          · rintro (⟨rfl, rfl⟩ | ⟨w, rfl, hw⟩)
            · exact .absent hroom
            · exact .present hroom hw
          · intro h
            cases h with
            | absent => exact .inl ⟨rfl, rfl⟩
            | present _ hw => exact .inr ⟨_, rfl, hw⟩
      | array inner =>
          refine ((inside .array).vector.map Json.array).of_iff fun w v => ⟨?_, ?_⟩
          · rintro ⟨_, ⟨count, n, items, hcount, hlength, hitems, rfl, rfl⟩, rfl⟩
            exact .array hroom hcount hlength hitems
          · intro h
            cases h with
            | array _ hcount hlength hitems => exact ⟨_, ⟨_, _, _, hcount, hlength, hitems, rfl, rfl⟩, rfl⟩
      | extension inner => cases ht.isExtension
      | named name =>
          cases hfind : c.find? name with
          | none =>
              rw [readWithin, hfind]
              refine (Decoder.Recognizes.throw _).of_iff fun w v => ⟨False.elim, fun h => ?_⟩
              cases h with
              | named _ hfind' _ => cases hfind.symm.trans hfind'
          | some layout =>
              have hlayout : (c.readWithin (levels + 1) (.named name)).Recognizes (c.LaidOut depth layout) :=
                recognizes_layout hfind (fun u hu => (ht.of_refersTo (.named hfind hu)).isExtension)
                  fun u hu => inside (.named hfind hu)
              refine hlayout.of_iff fun w v => ⟨.named hroom hfind, fun h => ?_⟩
              cases h with
              | named _ hfind' hw =>
                  obtain rfl := Option.some.inj (hfind.symm.trans hfind')
                  exact hw

/-- A type without `$` is read exactly off its encodings, whatever follows them. What is read was encoded, and
no input begins with encodings of two values. -/
theorem read_iff_encodes {t : TypeRef} (ht : c.Extensionless t) :
    (∀ w s v, (c.read t).outcome (w ++ s) = (.ok v, s) ↔ c.Encodes 0 t w v) ∧
      (∀ input v rest, (c.read t).outcome input = (.ok v, rest) → ∃ w, input = w ++ rest ∧ c.Encodes 0 t w v) ∧
      ∀ w w' s s' v v', c.Encodes 0 t w v → c.Encodes 0 t w' v' → w ++ s = w' ++ s' → w = w' ∧ v = v' := by
  have hread : (c.read t).Recognizes (c.Encodes 0 t) := recognizes_readWithin (Nat.zero_add maxLevels) ht
  simp only [Decoder.outcome_eq_ok_iff]
  exact ⟨fun _ _ _ => hread.run_iff, fun _ _ _ => hread.sound, fun _ _ _ _ _ _ => hread.unambiguous⟩

theorem encodes_blocksDocument : ∃ c, ofDocument blocksDocument = .ok c ∧
    ∀ s, (c.read (TypeRef.parse "row")).outcome ([1, 1, 7, 0, 0, 0, 0] ++ s) =
      (.ok (.array [.string "block?", Json.ofMembers [("number", .integer 7), ("parents", .array [])]]), s) := by
  have hlayouts : ((ofDocument blocksDocument).toOption.map fun c =>
      ["row", "block", "height", "uint32"].map c.find?) =
        some [some (.variant [.named "block", .optional (.named "block")]),
          some (.struct [⟨"number", .named "height"⟩, ⟨"parents", .array (.named "checksum256")⟩]),
          some (.alias (.named "uint32")), some (.builtin .uint32)] := by decide +kernel
  obtain ⟨c, hc, hfound⟩ := exists_ok_of_toOption_map hlayouts
  obtain ⟨hrow, hblock, hheight, huint32⟩ : _ ∧ _ ∧ _ ∧ _ := by simpa using hfound
  have hnumber : c.Encodes 3 (.named "height") [7, 0, 0, 0] (.integer 7) :=
    .named (by decide) hheight (.alias (.named (by decide) huint32 (.builtin rfl)))
  have hparents : c.Encodes 3 (.array (.named "checksum256")) [0] (.array []) :=
    @Encodes.array c 3 (.named "checksum256") [0] 0 [] (by decide) rfl rfl (List.forall_mem_nil _)
  have hmembers : ∀ m ∈ [(Field.mk "number" (.named "height"), [7, 0, 0, 0], Json.integer 7),
      (Field.mk "parents" (.array (.named "checksum256")), [0], Json.array [])],
      c.Encodes 3 m.1.type m.2.1 m.2.2 :=
    List.forall_mem_cons.mpr ⟨hnumber, List.forall_mem_singleton.mpr hparents⟩
  have hblockValue : c.Encodes 2 (.named "block") [7, 0, 0, 0, 0]
      (Json.ofMembers [("number", .integer 7), ("parents", .array [])]) :=
    .named (by decide) hblock (.struct hmembers)
  have hrowValue : c.Encodes 0 (TypeRef.parse "row") [1, 1, 7, 0, 0, 0, 0] (.array [.string
      (TypeRef.optional (.named "block")).render,
      Json.ofMembers [("number", .integer 7), ("parents", .array [])]]) := by
    rw [show TypeRef.parse "row" = .named "row" by decide +kernel]
    have hcase : c.LaidOut 0 (.variant [.named "block", .optional (.named "block")])
        ([1] ++ [1, 7, 0, 0, 0, 0]) _ :=
      .variant rfl rfl (.present (by decide) hblockValue)
    exact .named (by decide) hrow hcase
  have hplain : c.Extensionless (TypeRef.parse "row") :=
    extensionless_of_references hc (by decide +kernel) (by decide +kernel)
  obtain ⟨hread, -, -⟩ := read_iff_encodes hplain
  exact ⟨c, hc, fun s => (hread _ s _).mpr hrowValue⟩

end Schema.Catalog

end StateHistory
