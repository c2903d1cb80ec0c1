import Mathlib.Logic.Relation
import StateHistory.Proofs.Binary.Recognition
import StateHistory.Schema.Decoding

/-! # Values inside of values

Reading a value comes to other values: below a modifier, behind an alias, in a field, an item or a case. A
`Place` is where a value begins, `Catalog.Inward` one step from there to a value inside, and
`Catalog.ComesTo` any number of steps. What holds of every object and of every list of a value is said of all
places that its reading comes to, and a value is read only if the values at all these places are
(`Catalog.ComesTo.exists_reads`).

The fields of a struct are read one after the other (`Taken`), until there are none left or the input is over
at a field that is marked with `$` (`LeftOut`). -/

namespace StateHistory

/-! ### Items in a row -/

theorem Decoder.run_item {α : Type} {d : Decoder α} {n k : Nat} {read read' : List α} {input middle rest : Bytes}
    {items items' : List α} (hrun : (timesOnto d n read).run input = .ok items rest) (hk : k < n)
    (hbefore : (timesOnto d k read').run input = .ok items' middle) : ∃ v rest', d.run middle = .ok v rest' := by
  induction k generalizing n read read' input with
  | zero =>
      obtain ⟨n, rfl⟩ := Nat.exists_eq_add_one.mpr hk
      obtain ⟨-, rfl⟩ := EStateM.Result.ok.inj hbefore
      rw [timesOnto, EStateM.run_bind] at hrun
      split at hrun
      · exact ⟨_, _, ‹_›⟩
      · cases hrun
  | succ k ih =>
      obtain ⟨n, rfl⟩ := Nat.exists_eq_add_one.mpr (Nat.zero_lt_of_lt hk)
      rw [timesOnto, EStateM.run_bind] at hrun hbefore
      split at hrun
      · rename_i hfirst
        rw [hfirst] at hbefore
        exact ih hrun (Nat.lt_of_succ_lt_succ hk) hbefore
      · cases hrun

namespace Schema

/-! ### Fields in a row -/

/-- Fields are read one after the other, each as a value, and those marked with `$` only where the input goes
on. -/
inductive Taken (read : TypeRef → Decoder Json) : Bytes → List (Field × Json) → Bytes → Prop
  | nil {input : Bytes} : Taken read input [] input
  | cons {input middle rest : Bytes} {field : Field} {value : Json} {taken : List (Field × Json)} :
      (field.type.isExtension → input ≠ []) → (read field.type).run input = .ok value middle →
      Taken read middle taken rest → Taken read input ((field, value) :: taken) rest

/-- These fields are left out where a struct ends: there are none, or the input is over and the first of them
is marked with `$`. -/
inductive LeftOut : List Field → Bytes → Prop
  | none {rest : Bytes} : LeftOut [] rest
  | ended {field : Field} {fields : List Field} : field.type.isExtension → LeftOut (field :: fields) []

section Fields

variable {read : TypeRef → Decoder Json} {field : Field} {fields left : List Field}
  {before after : List (String × Json)} {taken : List (Field × Json)} {input middle rest : Bytes}

/-- The members of an object, with the values of more fields. -/
def withFields (before : List (String × Json)) (taken : List (Field × Json)) : List (String × Json) :=
  taken.foldl (fun members m => Json.insertMember m.1.name m.2 members) before

/-- The object of fields that were read. -/
def objectOf (taken : List (Field × Json)) : Json := Json.ofMembers (taken.map fun m => (m.1.name, m.2))

theorem object_withFields (taken : List (Field × Json)) : Json.object (withFields [] taken) = objectOf taken := by
  rw [objectOf, Json.ofMembers, withFields, List.foldl_map]

theorem run_readFields_of_ended (hfield : field.type.isExtension) :
    (readFields read (field :: fields) before).run [] = .ok before [] := by
  rw [readFields, hfield]
  rfl

theorem run_readFields_of_met (hmet : field.type.isExtension → input ≠ []) :
    (readFields read (field :: fields) before).run input = (read field.type >>= fun value =>
      readFields read fields (Json.insertMember field.name value before)).run input := by
  have hgoesOn : (field.type.isExtension && input.isEmpty) = false := by
    cases hfield : field.type.isExtension with
    | false => rfl
    | true => simpa using hmet hfield
  rw [readFields, EStateM.run_bind, show Decoder.atEnd.run input = .ok input.isEmpty input from rfl]
  dsimp only
  rw [hgoesOn]
  rfl

/-- Fields that have been read leave the others to be read where they end. -/
theorem Taken.run_append (h : Taken read input taken middle) :
    (readFields read (taken.map Prod.fst ++ fields) before).run input =
      (readFields read fields (withFields before taken)).run middle := by
  induction h generalizing before with
  | nil => rfl
  | cons hmet hvalue _ ih =>
      rw [List.map_cons, List.cons_append, run_readFields_of_met hmet, EStateM.run_bind, hvalue]
      exact ih

/-- Some fields of a struct are read one after the other and the others are left out. -/
theorem run_readFields_iff : (readFields read fields before).run input = .ok after rest ↔
    ∃ taken left, fields = taken.map Prod.fst ++ left ∧ Taken read input taken rest ∧ LeftOut left rest ∧
      after = withFields before taken := by
  constructor
  · intro hrun
    induction fields generalizing before input with
    | nil =>
        obtain ⟨rfl, rfl⟩ := EStateM.Result.ok.inj hrun
        exact ⟨[], [], rfl, .nil, .none, rfl⟩
    | cons field fields ih =>
        by_cases hmet : field.type.isExtension → input ≠ []
        · rw [run_readFields_of_met hmet, EStateM.run_bind] at hrun
          split at hrun
          · rename_i value middle hvalue
            obtain ⟨taken, left, rfl, htaken, hleft, rfl⟩ := ih hrun
            exact ⟨(field, value) :: taken, left, rfl, .cons hmet hvalue htaken, hleft, rfl⟩
          · cases hrun
        · obtain ⟨hfield, hinput⟩ := Classical.not_imp.mp hmet
          obtain rfl := Classical.not_not.mp hinput
          rw [run_readFields_of_ended hfield] at hrun
          obtain ⟨rfl, rfl⟩ := EStateM.Result.ok.inj hrun
          exact ⟨[], field :: fields, rfl, .nil, .ended hfield, rfl⟩
  · rintro ⟨taken, left, rfl, htaken, hleft, rfl⟩
    rw [htaken.run_append]
    cases hleft with
    | none => rfl
    | ended hfield => exact run_readFields_of_ended hfield

end Fields

/-! ### Places -/

/-- Where a value begins: the levels that are left there, its type, and the input from there on. -/
structure Place where
  levels : Nat
  type : TypeRef
  input : Bytes

namespace Catalog

variable {c : Catalog}

/-- What begins at a place is read as a value. -/
def ReadsAt (c : Catalog) (p : Place) (v : Json) (rest : Bytes) : Prop :=
  (c.readWithin p.levels p.type).outcome p.input = (.ok v, rest)

theorem readsAt_iff {p : Place} {v : Json} {rest : Bytes} :
    c.ReadsAt p v rest ↔ (c.readWithin p.levels p.type).run p.input = .ok v rest := Decoder.outcome_eq_ok_iff

/-- Reading the value at a place comes to a value inside of it, after all that is read before that. -/
inductive Inward (c : Catalog) : Place → Place → Prop
  | present {levels : Nat} {inner : TypeRef} {input rest : Bytes} : Decoder.bool.run input = .ok true rest →
      Inward c ⟨levels + 1, .optional inner, input⟩ ⟨levels, inner, rest⟩
  | item {levels k : Nat} {inner : TypeRef} {count : UInt32} {input middle rest : Bytes} {items : List Json} :
      Decoder.varuint32.run input = .ok count middle → k < count.toNat →
      (Decoder.times (c.readWithin levels inner) k).run middle = .ok items rest →
      Inward c ⟨levels + 1, .array inner, input⟩ ⟨levels, inner, rest⟩
  | extension {levels : Nat} {inner : TypeRef} {input : Bytes} : input ≠ [] →
      Inward c ⟨levels + 1, .extension inner, input⟩ ⟨levels, inner, input⟩
  | alias {levels : Nat} {name : String} {target : TypeRef} {input : Bytes} :
      c.find? name = some (.alias target) →
      Inward c ⟨levels + 1, .named name, input⟩ ⟨levels, target, input⟩
  | field {levels : Nat} {name : String} {taken : List (Field × Json)} {field : Field} {fields : List Field}
      {input rest : Bytes} : c.find? name = some (.struct (taken.map Prod.fst ++ field :: fields)) →
      Taken (c.readWithin levels) input taken rest → (field.type.isExtension → rest ≠ []) →
      Inward c ⟨levels + 1, .named name, input⟩ ⟨levels, field.type, rest⟩
  | case {levels : Nat} {name : String} {cases : List TypeRef} {tag : UInt32} {case : TypeRef}
      {input rest : Bytes} : c.find? name = some (.variant cases) → Decoder.varuint32.run input = .ok tag rest →
      cases[tag.toNat]? = some case → Inward c ⟨levels + 1, .named name, input⟩ ⟨levels, case, rest⟩

/-- Reading the value at a place comes to the other place sooner or later. -/
abbrev ComesTo (c : Catalog) : Place → Place → Prop := Relation.ReflTransGen c.Inward

theorem run_array_iff {levels : Nat} {inner : TypeRef} {input rest : Bytes} {v : Json} :
    (c.readWithin (levels + 1) (.array inner)).run input = .ok v rest ↔ ∃ count middle items,
      Decoder.varuint32.run input = .ok count middle ∧
        (Decoder.times (c.readWithin levels inner) count.toNat).run middle = .ok items rest ∧
        v = .array items := by
  rw [readWithin, EStateM.run_bind, Decoder.vector, EStateM.run_bind]
  constructor
  · intro hrun
    split at hrun
    · rename_i items rest' hitems
      split at hitems
      · rename_i count middle hcount
        obtain ⟨rfl, rfl⟩ := EStateM.Result.ok.inj hrun
        exact ⟨count, middle, items, hcount, hitems, rfl⟩
      · cases hitems
    · cases hrun
  · rintro ⟨count, middle, items, hcount, hitems, rfl⟩
    rw [hcount]
    dsimp only
    rw [hitems]
    rfl

theorem run_struct_iff {levels : Nat} {name : String} {fields : List Field} {input rest : Bytes} {v : Json}
    (hfind : c.find? name = some (.struct fields)) :
    (c.readWithin (levels + 1) (.named name)).run input = .ok v rest ↔ ∃ taken left,
      fields = taken.map Prod.fst ++ left ∧ Taken (c.readWithin levels) input taken rest ∧ LeftOut left rest ∧
        v = objectOf taken := by
  rw [readWithin, hfind]
  dsimp only
  rw [EStateM.run_bind]
  simp only [← object_withFields]
  constructor
  · intro hrun
    split at hrun
    · rename_i members rest' hmembers
      obtain ⟨rfl, rfl⟩ := EStateM.Result.ok.inj hrun
      obtain ⟨taken, left, hfields, htaken, hleft, rfl⟩ := run_readFields_iff.mp hmembers
      exact ⟨taken, left, hfields, htaken, hleft, rfl⟩
    · cases hrun
  · rintro ⟨taken, left, hfields, htaken, hleft, rfl⟩
    rw [run_readFields_iff.mpr ⟨taken, left, hfields, htaken, hleft, rfl⟩]
    rfl

/-- A value is read only if the value inside of it is. -/
theorem Inward.exists_reads {p q : Place} (h : c.Inward p q) {v : Json} {rest : Bytes} (hp : c.ReadsAt p v rest) :
    ∃ v' rest', c.ReadsAt q v' rest' := by
  simp only [readsAt_iff] at hp ⊢
  cases h with
  | present hflag =>
      rw [readWithin, EStateM.run_bind, hflag] at hp
      exact ⟨v, rest, hp⟩
  | item hcount hk hbefore =>
      obtain ⟨count', middle', items, hcount', hitems, -⟩ := run_array_iff.mp hp
      obtain ⟨rfl, rfl⟩ := EStateM.Result.ok.inj (hcount.symm.trans hcount')
      exact Decoder.run_item hitems hk hbefore
  | @extension levels inner input hinput =>
      rw [readWithin, EStateM.run_bind, show Decoder.atEnd.run input = .ok input.isEmpty input from rfl] at hp
      rw [List.isEmpty_eq_false_iff.mpr hinput] at hp
      exact ⟨v, rest, hp⟩
  | «alias» hfind =>
      rw [readWithin, hfind] at hp
      exact ⟨v, rest, hp⟩
  | field hfind htaken hmet =>
      rw [readWithin, hfind] at hp
      dsimp only at hp
      rw [EStateM.run_bind, htaken.run_append, run_readFields_of_met hmet, EStateM.run_bind] at hp
      split at hp
      · rename_i hrest
        split at hrest
        · exact ⟨_, _, ‹_›⟩
        · cases hrest
      · cases hp
  | case hfind htag hcase =>
      rw [readWithin, hfind] at hp
      dsimp only at hp
      rw [EStateM.run_bind, htag] at hp
      dsimp only at hp
      rw [hcase] at hp
      dsimp only at hp
      rw [EStateM.run_bind] at hp
      split at hp
      · exact ⟨_, _, ‹_›⟩
      · cases hp

/-- A value is read only if all values are that its reading comes to. -/
theorem ComesTo.exists_reads {p q : Place} (h : c.ComesTo p q) {v : Json} {rest : Bytes}
    (hp : c.ReadsAt p v rest) : ∃ v' rest', c.ReadsAt q v' rest' := by
  induction h with
  | refl => exact ⟨v, rest, hp⟩
  | tail _ hstep ih =>
      obtain ⟨v', rest', hreads⟩ := ih
      exact hstep.exists_reads hreads

end Catalog

end Schema

end StateHistory
