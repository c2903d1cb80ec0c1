import Mathlib.Data.List.Nodup
import Mathlib.Data.String.Basic
import StateHistory.Proofs.Schema.Object

/-! # Fields and members

The values of a struct's fields are put into an object one after the other, each under the name of its field. The
object has each name once (`Json.Ordered`), with the value that was put there last (`Json.mem_ofMembers_iff`). So it
holds what was read, value by value, exactly if no two of the fields have the same name, and fields of one name are
not refused: not among a struct's own ones, nor where a base has one of that name, too
(`Catalog.members_of_struct`, `Catalog.second_value_replaces_first`). -/

namespace StateHistory

namespace Json

variable {key k : String} {value v : Json} {members ms : List (String × Json)}

/-- Members in the order of their keys, each key once. -/
def Ordered (members : List (String × Json)) : Prop := members.Pairwise fun m m' => m.1 < m'.1

theorem Ordered.nodup (h : Ordered members) : (members.map Prod.fst).Nodup :=
  List.pairwise_map.mpr (h.imp fun hlt => ne_of_lt hlt)

theorem mem_of_mem_insertMember {m : String × Json} (h : m ∈ insertMember key value members) :
    m = (key, value) ∨ m ∈ members := by
  induction members with
  | nil => exact .inl (List.mem_singleton.mp h)
  | cons first rest ih =>
      obtain ⟨k, v⟩ := first
      rw [insertMember] at h
      split at h
      · exact List.mem_cons.mp h
      · split at h
        · exact (List.mem_cons.mp h).imp_right (List.mem_cons_of_mem _)
        · rcases List.mem_cons.mp h with rfl | h
          · exact .inr (List.mem_cons_self ..)
          · exact (ih h).imp_right (List.mem_cons_of_mem _)

theorem Ordered.insertMember (h : Ordered members) (key : String) (value : Json) :
    Ordered (insertMember key value members) := by
  induction members with
  | nil => exact List.pairwise_singleton _ _
  | cons first rest ih =>
      obtain ⟨k, v⟩ := first
      obtain ⟨hfirst, hrest⟩ := List.pairwise_cons.mp h
      rw [Json.insertMember]
      split
      · rename_i hbefore
        refine List.pairwise_cons.mpr ⟨fun m hm => ?_, h⟩
        rcases List.mem_cons.mp hm with rfl | hm
        · exact hbefore
        · exact lt_trans hbefore (hfirst m hm)
      · split
        · rename_i hsame
          subst hsame
          exact List.pairwise_cons.mpr ⟨hfirst, hrest⟩
        · rename_i hbefore hother
          refine List.pairwise_cons.mpr ⟨fun m hm => ?_, ih hrest⟩
          rcases mem_of_mem_insertMember hm with rfl | hm
          · exact lt_of_le_of_ne (not_lt.mp hbefore) (Ne.symm hother)
          · exact hfirst m hm

/-- An object has its members in the order of their keys. -/
theorem exists_ordered_ofMembers (values : List (String × Json)) :
    ∃ members, ofMembers values = object members ∧ Ordered members := by
  refine ⟨_, rfl, ?_⟩
  have hfold : ∀ ms, Ordered ms → Ordered (values.foldl (fun ms m => Json.insertMember m.1 m.2 ms) ms) := by
    induction values with
    | nil => exact fun ms hms => hms
    | cons m values ih => exact fun ms hms => ih _ (hms.insertMember m.1 m.2)
  exact hfold [] List.Pairwise.nil

theorem lookup_of_ofMembers {values : List (String × Json)} (h : ofMembers values = object members) :
    members.lookup key = values.reverse.lookup key := by
  rw [← member?_ofMembers, h, member?]

/-- Of the values that are put in under one key, an object holds the last one. -/
theorem mem_ofMembers_iff {values : List (String × Json)} (h : ofMembers values = object members)
    (hordered : Ordered members) : (key, value) ∈ members ↔
      ∃ earlier later, values = earlier ++ (key, value) :: later ∧ key ∉ later.map Prod.fst := by
  have hnone : ∀ ms : List (String × Json), (∀ m ∈ ms, (key != m.1) = true) ↔ key ∉ ms.map Prod.fst := fun ms =>
    List.lookup_eq_none_iff.symm.trans lookup_eq_none_iff_not_mem
  rw [← lookup_eq_some_iff_mem hordered.nodup, lookup_of_ofMembers h, List.lookup_eq_some_iff]
  constructor
  · rintro ⟨later, earlier, hsplit, hnew⟩
    refine ⟨earlier.reverse, later.reverse, List.reverse_injective ?_, ?_⟩
    · rw [hsplit, List.reverse_append, List.reverse_cons, List.reverse_reverse, List.reverse_reverse,
        List.append_assoc, List.singleton_append]
    · rw [List.map_reverse, List.mem_reverse]
      exact (hnone later).mp hnew
  · rintro ⟨earlier, later, rfl, hnew⟩
    refine ⟨later.reverse, earlier.reverse, ?_, (hnone _).mpr ?_⟩
    · rw [List.reverse_append, List.reverse_cons, List.append_assoc, List.singleton_append]
    · rwa [List.map_reverse, List.mem_reverse]

/-- An object holds all values that are put in exactly if their keys are different. -/
theorem perm_ofMembers_iff {values : List (String × Json)} (h : ofMembers values = object members)
    (hordered : Ordered members) : members.Perm values ↔ (values.map Prod.fst).Nodup := by
  refine ⟨fun hperm => (hperm.map Prod.fst).nodup_iff.mp hordered.nodup, fun hnodup => ?_⟩
  have hreverse : (values.reverse.map Prod.fst).Nodup := by rwa [List.map_reverse, List.nodup_reverse]
  refine (List.perm_ext_iff_of_nodup hordered.nodup.of_map hnodup.of_map).mpr fun ⟨key, value⟩ => ?_
  rw [← lookup_eq_some_iff_mem hordered.nodup, lookup_of_ofMembers h, lookup_eq_some_iff_mem hreverse,
    List.mem_reverse]

end Json

namespace Schema

/-- The values of fields under the names of the fields. -/
def namedValues (taken : List (Field × Json)) : List (String × Json) := taken.map fun m => (m.1.name, m.2)

theorem map_fst_namedValues (taken : List (Field × Json)) :
    (namedValues taken).map Prod.fst = (taken.map Prod.fst).map Field.name := by
  rw [namedValues, List.map_map, List.map_map]
  rfl

namespace Catalog

variable {d : Document} {c : Catalog}

/-- Wherever a value is read, the object of a struct inside of it has each name once, with the value of the last
field of this name that was read. It holds everything that was read, one member for each field, exactly if no two of
these fields have the same name, and so whenever no two fields of the struct and its bases have. -/
theorem members_of_struct (h : ofDocument d = .ok c) {s : StructDef} (hs : s ∈ d.structs) :
    ∃ above, d.Inherits s above ∧
      ∀ t input v rest, (c.read t).outcome input = (.ok v, rest) →
        ∀ levels start, c.ComesTo ⟨maxLevels, t, input⟩ ⟨levels, .named s.name, start⟩ →
          ∃ below taken left rest' members, levels = below + 1 ∧
            c.ReadsAt ⟨levels, .named s.name, start⟩ (.object members) rest' ∧
            s.fieldsWith above = taken.map Prod.fst ++ left ∧ Taken (c.readWithin below) start taken rest' ∧
            LeftOut left rest' ∧ (members.map Prod.fst).Nodup ∧
            (∀ key value, (key, value) ∈ members ↔ ∃ earlier later,
              namedValues taken = earlier ++ (key, value) :: later ∧ key ∉ later.map Prod.fst) ∧
            (members.Perm (namedValues taken) ↔ ((taken.map Prod.fst).map Field.name).Nodup) ∧
            (((s.fieldsWith above).map Field.name).Nodup → members.Perm (namedValues taken)) := by
  obtain ⟨above, hinherits, hfind⟩ := exists_find?_struct h hs
  refine ⟨above, hinherits, fun t input v rest hread levels start hcomes => ?_⟩
  have hroot : c.ReadsAt ⟨maxLevels, t, input⟩ v rest := hread
  obtain ⟨object, rest', hobject⟩ := hcomes.exists_reads hroot
  obtain ⟨below, taken, left, rfl, hfields, htaken, hleft, rfl⟩ := (readsAt_struct_iff hfind).mp hobject
  obtain ⟨members, hmembers, hordered⟩ := Json.exists_ordered_ofMembers (namedValues taken)
  have hperm := Json.perm_ofMembers_iff hmembers hordered
  rw [map_fst_namedValues] at hperm
  rw [objectOf, ← namedValues, hmembers] at hobject
  refine ⟨below, taken, left, rest', members, rfl, hobject, hfields, htaken, hleft, hordered.nodup,
    fun key value => Json.mem_ofMembers_iff hmembers hordered, hperm, fun hnodup => hperm.mpr ?_⟩
  rw [hfields, List.map_append] at hnodup
  exact (List.nodup_append.mp hnodup).1

theorem members_ownedDocument : ∃ c above, ofDocument ownedDocument = .ok c ∧
    ownedDocument.Inherits ownedStruct above ∧ ∃ below taken left rest members, maxLevels = below + 1 ∧
      c.ReadsAt ⟨maxLevels, .named ownedStruct.name, [1, 2, 3]⟩ (.object members) rest ∧
        ownedStruct.fieldsWith above = taken.map Prod.fst ++ left ∧ (members.map Prod.fst).Nodup ∧
          (members.Perm (namedValues taken) ↔ ((taken.map Prod.fst).map Field.name).Nodup) := by
  have hfacts : ((ofDocument ownedDocument).toOption.map fun c =>
      ((c.read (.named ownedStruct.name)).outcome [1, 2, 3]).1.toOption.map fun _ => ()) = some (some ()) := by
    decide +kernel
  obtain ⟨c, hc, hread⟩ := exists_ok_of_toOption_map hfacts
  obtain ⟨v, hv, -⟩ := exists_ok_of_toOption_map hread
  obtain ⟨above, hinherits, hobjects⟩ := members_of_struct hc (s := ownedStruct) (.tail _ (.head _))
  obtain ⟨below, taken, left, rest, members, hbelow, hobject, hfields, -, -, hnodup, -, hperm, -⟩ :=
    hobjects (.named ownedStruct.name) [1, 2, 3] v _ (Prod.ext hv rfl) maxLevels [1, 2, 3] .refl
  exact ⟨c, above, hc, hinherits, below, taken, left, rest, members, hbelow, hobject, hfields, hnodup, hperm⟩

/-- A record with a number of its own, after the number of the record that it extends. -/
def renumberedStruct : StructDef := ⟨"renumbered", "plain", [⟨"id", "uint8"⟩]⟩

/-- A document in which a struct has a field of the same name as its base. -/
def renumberedDocument : Document where
  version := "eosio::abi/1.0"
  aliases := []
  structs := [⟨"plain", "", [⟨"id", "uint8"⟩]⟩, renumberedStruct]
  variants := []
  tables := []

/-- The only member of an object, if it is a whole number. -/
def soleWhole? : Json → Option (String × Int)
  | .object [(name, .integer n)] => some (name, n)
  | _ => none

theorem eq_of_soleWhole? {object : Json} {m : String × Int} (h : soleWhole? object = some m) :
    object = .object [(m.1, .integer m.2)] := by
  unfold soleWhole? at h
  split at h
  · cases h
    rfl
  · cases h

/-- Two numbers are read for the two fields, and the object has the second one only. -/
theorem second_value_replaces_first : ∃ c, ofDocument renumberedDocument = .ok c ∧
    c.find? renumberedStruct.name = some (.struct [⟨"id", .named "uint8"⟩, ⟨"id", .named "uint8"⟩]) ∧
    (c.read (.named renumberedStruct.name)).outcome [1, 2] =
      (.ok (.object [("id", .integer 2)]), []) := by
  have hfacts : ((ofDocument renumberedDocument).toOption.map fun c =>
      (c.find? renumberedStruct.name, ((c.read (.named renumberedStruct.name)).outcome [1, 2]).2,
        ((c.read (.named renumberedStruct.name)).outcome [1, 2]).1.toOption.map soleWhole?)) =
      some (some (.struct [⟨"id", .named "uint8"⟩, ⟨"id", .named "uint8"⟩]), [],
        some (some ("id", 2))) := by decide +kernel
  obtain ⟨c, hc, hfacts⟩ := exists_ok_of_toOption_map hfacts
  obtain ⟨hfind, hfacts⟩ := Prod.mk.inj hfacts
  obtain ⟨hrest, hread⟩ := Prod.mk.inj hfacts
  obtain ⟨object, hobject, hmember⟩ := exists_ok_of_toOption_map hread
  rw [eq_of_soleWhole? hmember] at hobject
  exact ⟨c, hc, hfind, Prod.ext hobject hrest⟩

end Catalog

end Schema

end StateHistory
