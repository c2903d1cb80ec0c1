import StateHistory.Proofs.Message.Json
import StateHistory.Proofs.Schema.Layout
import StateHistory.Proofs.Schema.Place

/-! # The members of objects

An object holds the fields of its struct that were read, and reading goes on to the first field marked with `$`
at which the input is over. All that comes from there on is left out, marked or not. So an object has every
field without `$` if no such field comes after one with `$` (`ExtensionsLast`), and else it may lack one
(`lacks_required_field`): a base may end in a field with `$`, and the struct goes on after it. -/

namespace StateHistory.Schema

/-- Nothing but fields with `$` comes after a field with `$`. -/
def ExtensionsLast (fields : List Field) : Prop :=
  fields.Pairwise fun f f' => f.type.isExtension → f'.type.isExtension

/-- If fields with `$` come last, nothing else is left out. -/
theorem LeftOut.isExtension {before left : List Field} {rest : Bytes} (h : LeftOut left rest)
    (hlast : ExtensionsLast (before ++ left)) : ∀ f ∈ left, f.type.isExtension := by
  cases h with
  | none => exact List.forall_mem_nil _
  | ended hfield =>
      obtain ⟨-, hleft, -⟩ := List.pairwise_append.mp hlast
      exact List.forall_mem_cons.mpr ⟨hfield, fun f hf => (List.pairwise_cons.mp hleft).1 f hf hfield⟩

namespace Catalog

variable {d : Document} {c : Catalog}

theorem readsAt_struct_iff {levels : Nat} {name : String} {fields : List Field} {input rest : Bytes} {v : Json}
    (hfind : c.find? name = some (.struct fields)) :
    c.ReadsAt ⟨levels, .named name, input⟩ v rest ↔ ∃ below taken left, levels = below + 1 ∧
      fields = taken.map Prod.fst ++ left ∧ Taken (c.readWithin below) input taken rest ∧ LeftOut left rest ∧
        v = objectOf taken := by
  rw [readsAt_iff]
  cases levels with
  | zero =>
      constructor
      · rintro ⟨⟩
      · rintro ⟨_, _, _, ⟨⟩, _⟩
  | succ below =>
      rw [run_struct_iff hfind]
      simp

/-- Every field that was read is a member of the object. -/
theorem isSome_member?_objectOf {taken : List (Field × Json)} {f : Field} (h : f ∈ taken.map Prod.fst) :
    ((objectOf taken).member? f.name).isSome := by
  rw [objectOf, Json.isSome_member?_ofMembers, List.map_map]
  obtain ⟨m, hm, rfl⟩ := List.mem_map.mp h
  exact List.mem_map.mpr ⟨m, hm, rfl⟩

/-- Wherever a value is read, the object of every struct inside of it holds the fields that were read before the
struct was over or the input was over at a field with `$`. It has all fields without `$` if those with `$` come
last; it lacks one only where the input was over at a field with `$` before it, and there it is cut short
whatever comes after. -/
theorem object_of_struct (h : ofDocument d = .ok c) {s : StructDef} (hs : s ∈ d.structs) :
    ∃ above, d.Inherits s above ∧
      (∀ t input v rest, (c.read t).outcome input = (.ok v, rest) →
        ∀ levels start, c.ComesTo ⟨maxLevels, t, input⟩ ⟨levels, .named s.name, start⟩ →
          ∃ below taken left rest', levels = below + 1 ∧
            c.ReadsAt ⟨below + 1, .named s.name, start⟩ (objectOf taken) rest' ∧
            s.fieldsWith above = taken.map Prod.fst ++ left ∧ Taken (c.readWithin below) start taken rest' ∧
            LeftOut left rest' ∧ (ExtensionsLast (s.fieldsWith above) → ∀ f ∈ left, f.type.isExtension) ∧
            ∀ f ∈ s.fieldsWith above, f.type.isExtension = false →
              ((objectOf taken).member? f.name).isSome ∨
                rest' = [] ∧ ∃ e more, left = e :: more ∧ e.type.isExtension ∧ f ∈ more) ∧
      ∀ below start taken e more, s.fieldsWith above = taken.map Prod.fst ++ e :: more → e.type.isExtension →
        Taken (c.readWithin below) start taken [] →
          c.ReadsAt ⟨below + 1, .named s.name, start⟩ (objectOf taken) [] := by
  obtain ⟨above, hinherits, hfind⟩ := exists_find?_struct h hs
  refine ⟨above, hinherits, fun t input v rest hread levels start hcomes => ?_, ?_⟩
  · have hroot : c.ReadsAt ⟨maxLevels, t, input⟩ v rest := hread
    obtain ⟨object, rest', hobject⟩ := hcomes.exists_reads hroot
    obtain ⟨below, taken, left, rfl, hfields, htaken, hleft, rfl⟩ := (readsAt_struct_iff hfind).mp hobject
    refine ⟨below, taken, left, rest', rfl, hobject, hfields, htaken, hleft, ?_, fun f hf hrequired => ?_⟩
    · rw [hfields]
      exact hleft.isExtension
    · rw [hfields, List.mem_append] at hf
      rcases hf with hf | hf
      · exact .inl (isSome_member?_objectOf hf)
      · cases hleft with
        | none => cases hf
        | @ended e more he =>
            refine .inr ⟨rfl, e, more, rfl, he, (List.mem_cons.mp hf).resolve_left ?_⟩
            rintro rfl
            rw [he] at hrequired
            cases hrequired
  · intro below start taken e more hfields he htaken
    exact (readsAt_struct_iff hfind).mpr ⟨below, taken, e :: more, rfl, hfields, htaken, .ended he, rfl⟩

/-- A record that may end with a note. -/
def recordStruct : StructDef := ⟨"record", "", [⟨"id", "uint8"⟩, ⟨"note", "uint8$"⟩]⟩

/-- A record with an owner, who comes after the note. -/
def ownedStruct : StructDef := ⟨"owned", "record", [⟨"owner", "uint8"⟩]⟩

/-- A document with a field without `$` behind a field with `$`. -/
def ownedDocument : Document where
  version := "eosio::abi/1.0"
  aliases := []
  structs := [recordStruct, ownedStruct]
  variants := []
  tables := []

theorem object_ownedDocument : ∃ c above, ofDocument ownedDocument = .ok c ∧
    ownedDocument.Inherits ownedStruct above ∧
      ∃ below taken left rest, maxLevels = below + 1 ∧
        c.ReadsAt ⟨below + 1, .named ownedStruct.name, [1]⟩ (objectOf taken) rest ∧
          ownedStruct.fieldsWith above = taken.map Prod.fst ++ left ∧ LeftOut left rest := by
  have hfacts : ((ofDocument ownedDocument).toOption.map fun c =>
      ((c.read (.named ownedStruct.name)).outcome [1]).1.toOption.map fun _ => ()) = some (some ()) := by
    decide +kernel
  obtain ⟨c, hc, hread⟩ := exists_ok_of_toOption_map hfacts
  obtain ⟨v, hv, -⟩ := exists_ok_of_toOption_map hread
  obtain ⟨above, hinherits, hobjects, -⟩ := object_of_struct hc (s := ownedStruct) (.tail _ (.head _))
  obtain ⟨below, taken, left, rest, hbelow, hobject, hfields, -, hleft, -⟩ :=
    hobjects (.named ownedStruct.name) [1] v _ (Prod.ext hv rfl) maxLevels [1] .refl
  exact ⟨c, above, hc, hinherits, below, taken, left, rest, hbelow, hobject, hfields, hleft⟩

/-- The input is over at the note, and so the object has no owner. -/
theorem lacks_required_field : ∃ c, ofDocument ownedDocument = .ok c ∧
    c.find? ownedStruct.name = some (.struct [⟨"id", .named "uint8"⟩, ⟨"note", .extension (.named "uint8")⟩,
      ⟨"owner", .named "uint8"⟩]) ∧
    ∃ object rest, (c.read (.named ownedStruct.name)).outcome [1] = (.ok object, rest) ∧
      (object.member? "id").isSome ∧ object.member? "owner" = none := by
  have hfacts : ((ofDocument ownedDocument).toOption.map fun c =>
      (c.find? ownedStruct.name, ((c.read (.named ownedStruct.name)).outcome [1]).1.toOption.map fun object =>
        ((object.member? "id").isSome, (object.member? "owner").isSome))) =
      some (some (.struct [⟨"id", .named "uint8"⟩, ⟨"note", .extension (.named "uint8")⟩,
        ⟨"owner", .named "uint8"⟩]), some (true, false)) := by decide +kernel
  obtain ⟨c, hc, hfacts⟩ := exists_ok_of_toOption_map hfacts
  obtain ⟨hfind, hread⟩ := Prod.mk.inj hfacts
  obtain ⟨object, hobject, hmembers⟩ := exists_ok_of_toOption_map hread
  obtain ⟨hid, howner⟩ := Prod.mk.inj hmembers
  refine ⟨c, hc, hfind, object, _, Prod.ext hobject rfl, hid, ?_⟩
  rwa [Option.isSome_eq_false_iff, Option.isNone_iff_eq_none] at howner

end Catalog

end StateHistory.Schema
