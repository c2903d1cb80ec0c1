import StateHistory.Proofs.Binary.Width
import StateHistory.Proofs.Schema.Grammar
import StateHistory.Proofs.Schema.Object

/-! # How long lists are

A count is not checked against the input. A list is no longer than what it is read off if its items take a byte
each, which builtin types, flags, counts and tags see to (`Catalog.takes_readWithin`). But a value that is marked
with `$` may be left out, and a struct may have no fields, or none but such ones; items of such a type are read
off nothing, in any number (`Catalog.weighs`, `five_items_of_one_byte`). -/

namespace StateHistory.Schema

/-- The fields of a struct that are read even where the input is over. -/
def requiredFields (fields : List Field) : List Field := fields.takeWhile fun f => !f.type.isExtension

/-- A struct takes a byte if one of the fields does that are read in any case. -/
theorem takes_readFields {read : TypeRef → Decoder Json} {weighs : TypeRef → Bool}
    (hread : ∀ t, (read t).Takes (weighs t).toNat) (fields : List Field) (members : List (String × Json)) :
    (readFields read fields members).Takes ((requiredFields fields).any fun f => weighs f.type).toNat := by
  induction fields generalizing members with
  | nil => exact .pure _
  | cons field fields ih =>
      rw [requiredFields, List.takeWhile_cons]
      cases hfield : field.type.isExtension with
      | true =>
          refine Decoder.takes_atEnd.bind (n := 0) fun ended => ?_
          split
          · exact .pure _
          · exact ((hread field.type).bind fun value => ih _).mono (Nat.zero_le _)
      | false =>
          rw [Catalog.readFields_cons hfield]
          refine ((hread field.type).bind fun value => ih _).mono ?_
          rw [Bool.not_false, if_pos rfl, List.any_cons, ← requiredFields]
          cases weighs field.type
          · rw [Bool.false_or]
            exact Nat.le_add_left _ _
          · exact Nat.le_add_right _ _

/-- A struct is read off no bytes if the fields are that are read in any case. -/
theorem exists_run_readFields_nil {read : TypeRef → Decoder Json} {fields : List Field}
    (hread : ∀ f ∈ requiredFields fields, ∃ v, (read f.type).run [] = .ok v []) (members : List (String × Json)) :
    ∃ after, (readFields read fields members).run [] = .ok after [] := by
  induction fields generalizing members with
  | nil => exact ⟨members, rfl⟩
  | cons field fields ih =>
      rw [requiredFields, List.takeWhile_cons] at hread
      cases hfield : field.type.isExtension with
      | true => exact ⟨members, run_readFields_of_ended hfield⟩
      | false =>
          rw [hfield, Bool.not_false, if_pos rfl, List.forall_mem_cons] at hread
          obtain ⟨⟨v, hv⟩, hrest⟩ := hread
          rw [Catalog.readFields_cons hfield, EStateM.run_bind, hv]
          exact ih hrest _

namespace Catalog

variable {d : Document} {c : Catalog}

/-- Whether a value of the given type takes a byte at least. -/
def weighs (c : Catalog) : (levels : Nat) → TypeRef → Bool
  | 0, _ => true
  | _ + 1, .optional _ => true
  | _ + 1, .array _ => true
  | _ + 1, .extension _ => false
  | levels + 1, .named name =>
    match c.find? name with
    | some (.alias target) => c.weighs levels target
    | some (.struct fields) => (requiredFields fields).any fun f => c.weighs levels f.type
    | _ => true

/-- What a value is read off is as long as it should be. -/
theorem takes_readWithin (c : Catalog) (levels : Nat) (t : TypeRef) :
    (c.readWithin levels t).Takes (c.weighs levels t).toNat := by
  induction levels generalizing t with
  | zero => exact .throw _
  | succ levels ih =>
      have hnone : ∀ u, (c.readWithin levels u).Takes 0 := fun u => (ih u).mono (Nat.zero_le _)
      cases t with
      | optional inner =>
          refine Decoder.takes_bool.bind (n := 0) fun there => ?_
          split
          · exact hnone inner
          · exact .pure _
      | array inner => exact (hnone inner).vector.bind fun _ => .pure _
      | extension inner =>
          refine Decoder.takes_atEnd.bind (n := 0) fun ended => ?_
          split
          · exact .pure _
          · exact hnone inner
      | named name =>
          rw [readWithin, weighs]
          cases c.find? name with
          | none => exact .throw _
          | some layout =>
              cases layout with
              | builtin type => exact type.takes_decoder
              | «alias» target => exact ih target
              | struct fields => exact (takes_readFields ih fields []).bind fun _ => .pure _
              | variant cases =>
                  refine Decoder.takes_varuint32.bind (n := 0) fun tag => ?_
                  split
                  · exact .throw _
                  · exact (hnone _).bind fun _ => .pure _

theorem weighs_eq_false_iff {levels : Nat} {t : TypeRef} :
    c.weighs levels t = false ↔ ∃ v, (c.readWithin levels t).run [] = .ok v [] := by
  constructor
  · intro h
    induction levels generalizing t with
    | zero => cases h
    | succ levels ih =>
        cases t with
        | optional inner => cases h
        | array inner => cases h
        | extension inner => exact ⟨.null, rfl⟩
        | named name =>
            rw [weighs] at h
            rw [readWithin]
            cases hfind : c.find? name with
            | none =>
                rw [hfind] at h
                cases h
            | some layout =>
                rw [hfind] at h
                cases layout with
                | builtin type => cases h
                | «alias» target => exact ih h
                | struct fields =>
                    have hrequired : ∀ f ∈ requiredFields fields, ∃ v, (c.readWithin levels f.type).run [] = .ok v [] :=
                      fun f hf => ih (by simpa using List.any_eq_false.mp h f hf)
                    obtain ⟨after, hafter⟩ := exists_run_readFields_nil hrequired []
                    refine ⟨.object after, ?_⟩
                    dsimp only
                    rw [EStateM.run_bind, hafter]
                    rfl
                | variant cases => cases h
  · rintro ⟨v, hv⟩
    obtain ⟨w, hw, hlength⟩ := c.takes_readWithin levels t hv
    obtain rfl := (List.append_eq_nil_iff.mp hw.symm).1
    cases hweighs : c.weighs levels t with
    | true =>
        rw [hweighs] at hlength
        cases hlength
    | false => rfl

/-- Without `$` and without empty structs everything takes a byte. -/
theorem weighs_of_extensionless (hstructs : ∀ name, c.find? name ≠ some (.struct [])) {t : TypeRef}
    (ht : c.Extensionless t) (levels : Nat) : c.weighs levels t := by
  induction levels generalizing t with
  | zero => rfl
  | succ levels ih =>
      cases t with
      | optional inner => rfl
      | array inner => rfl
      | extension inner => cases ht.isExtension
      | named name =>
          rw [weighs]
          cases hfind : c.find? name with
          | none => rfl
          | some layout =>
              cases layout with
              | builtin type => rfl
              | «alias» target => exact ih (ht.of_refersTo (.named hfind (List.mem_singleton_self _)))
              | struct fields =>
                  cases fields with
                  | nil => exact absurd hfind (hstructs name)
                  | cons field fields =>
                      have hfield := ht.of_refersTo (.named hfind (List.mem_map_of_mem (List.mem_cons_self ..)))
                      refine List.any_eq_true.mpr ⟨field, ?_, ih hfield⟩
                      rw [requiredFields, List.takeWhile_cons, hfield.isExtension]
                      exact List.mem_cons_self ..
              | variant cases => rfl

theorem weighs_of_document (h : ofDocument d = .ok c)
    (hreferences : ∀ type ∈ d.references, (TypeRef.parse type).hasExtension = false)
    (hfields : ∀ s ∈ d.structs, ∀ above, d.Inherits s above → s.fieldsWith above ≠ []) {t : TypeRef}
    (ht : t.hasExtension = false) (levels : Nat) : c.weighs levels t := by
  have hnames := (wellFormed_of_ofDocument h).toWellNamed
  refine weighs_of_extensionless (fun name hfind => ?_) (extensionless_of_references h hreferences ht) levels
  generalize hlayout : Layout.struct [] = layout at hfind
  cases ((typesOf_ofDocument h).find?_eq_some_iff hnames).mp hfind with
  | @struct s fields hs hflatten =>
      obtain rfl := Layout.struct.inj hlayout
      obtain ⟨above, hinherits, habove⟩ := hnames.flatten_eq_ok_iff.mp hflatten
      exact hfields s hs above hinherits habove
  | builtin _ => cases hlayout
  | «alias» _ => cases hlayout
  | variant _ => cases hlayout

/-! ### Lists -/

section Lists

variable {levels : Nat} {elem : TypeRef} {start rest : Bytes}

theorem length_items_lt (hweighs : c.weighs levels elem) {items : List Json}
    (h : c.ReadsAt ⟨levels + 1, .array elem, start⟩ (.array items) rest) :
    ∃ w, start = w ++ rest ∧ items.length < w.length := by
  obtain ⟨count, middle, items', hcount, hitems, hvalue⟩ := run_array_iff.mp (readsAt_iff.mp h)
  obtain rfl := Json.array.inj hvalue
  have hitem := c.takes_readWithin levels elem
  rw [hweighs] at hitem
  obtain ⟨w, rfl, hw⟩ := Decoder.takes_varuint32 hcount
  obtain ⟨w', rfl, hw'⟩ := hitem.exists_of_times hitems
  refine ⟨w ++ w', (List.append_assoc ..).symm, ?_⟩
  rw [Decoder.length_of_times hitems, List.length_append]
  omega

/-- Items that take no byte are there in any number. -/
theorem exists_readsAt_of_weightless (hweighs : c.weighs levels elem = false) (count : UInt32) :
    ∃ items, items.length = count.toNat ∧
      c.ReadsAt ⟨levels + 1, .array elem, Encoder.varuint32 count⟩ (.array items) [] := by
  obtain ⟨v, hv⟩ := weighs_eq_false_iff.mp hweighs
  have hcount := Decoder.run_varuint32 count []
  rw [List.append_nil] at hcount
  refine ⟨List.replicate count.toNat v, List.length_replicate, readsAt_iff.mpr (run_array_iff.mpr ?_)⟩
  exact ⟨count, [], _, hcount, Decoder.run_times_nil hv _, rfl⟩

/-- A count that is beyond the input is an error exactly where the items take a byte each. -/
theorem count_beyond_input_iff : c.weighs levels elem ↔
    ∀ start count middle, Decoder.varuint32.run start = .ok count middle → middle.length < count.toNat →
      ∃ e rest, (c.readWithin (levels + 1) (.array elem)).outcome start = (.error e, rest) := by
  constructor
  · intro hweighs start count middle hcount hbeyond
    rw [Decoder.outcome]
    cases hrun : (c.readWithin (levels + 1) (.array elem)).run start with
    | error e rest => exact ⟨e, rest, rfl⟩
    | ok v rest =>
        obtain ⟨count', middle', items, hcount', hitems, -⟩ := run_array_iff.mp hrun
        obtain ⟨rfl, rfl⟩ := EStateM.Result.ok.inj (hcount.symm.trans hcount')
        have hitem := c.takes_readWithin levels elem
        rw [hweighs] at hitem
        obtain ⟨w, rfl, hw⟩ := hitem.exists_of_times hitems
        rw [List.length_append] at hbeyond
        omega
  · intro herrors
    by_contra hweighs
    obtain ⟨items, -, hreads⟩ := exists_readsAt_of_weightless (Bool.eq_false_iff.mpr hweighs) 1
    have hcount := Decoder.run_varuint32 1 []
    rw [List.append_nil] at hcount
    obtain ⟨e, rest, herror⟩ := herrors (Encoder.varuint32 1) 1 [] hcount Nat.zero_lt_one
    cases hreads.symm.trans herror

end Lists

/-- Wherever a value is read, a list inside of it whose items take a byte each is shorter than what the list is
read off, and a count beyond the input is an error. Items that take no byte come in any number, after at most
five bytes for the count; only `$` and structs without fields give rise to them. -/
theorem array_within_input (h : ofDocument d = .ok c) :
    (∀ t input v rest, (c.read t).outcome input = (.ok v, rest) →
      ∀ levels elem start, c.ComesTo ⟨maxLevels, t, input⟩ ⟨levels, .array elem, start⟩ →
        ∃ below items rest', levels = below + 1 ∧ c.ReadsAt ⟨levels, .array elem, start⟩ (.array items) rest' ∧
          (c.weighs below elem → ∃ w, start = w ++ rest' ∧ items.length < w.length)) ∧
    (∀ levels elem, c.weighs levels elem ↔
      ∀ start count middle, Decoder.varuint32.run start = .ok count middle → middle.length < count.toNat →
        ∃ e rest, (c.readWithin (levels + 1) (.array elem)).outcome start = (.error e, rest)) ∧
    (∀ levels elem, c.weighs levels elem = false → ∀ count : UInt32, ∃ start items, start.length ≤ 5 ∧
      items.length = count.toNat ∧ c.ReadsAt ⟨levels + 1, .array elem, start⟩ (.array items) []) ∧
    ((∀ type ∈ d.references, (TypeRef.parse type).hasExtension = false) →
      (∀ s ∈ d.structs, ∀ above, d.Inherits s above → s.fieldsWith above ≠ []) →
        ∀ levels elem, elem.hasExtension = false → c.weighs levels elem) := by
  refine ⟨fun t input v rest hread levels elem start hcomes => ?_, fun _ _ => count_beyond_input_iff, ?_, ?_⟩
  · have hroot : c.ReadsAt ⟨maxLevels, t, input⟩ v rest := hread
    obtain ⟨v', rest', hreads⟩ := hcomes.exists_reads hroot
    cases levels with
    | zero => cases hreads
    | succ below =>
        obtain ⟨count, middle, items, -, -, rfl⟩ := run_array_iff.mp (readsAt_iff.mp hreads)
        exact ⟨below, items, rest', rfl, hreads, fun hweighs => length_items_lt hweighs hreads⟩
  · intro levels elem hweighs count
    obtain ⟨items, hlength, hreads⟩ := exists_readsAt_of_weightless hweighs count
    exact ⟨_, items, Encoder.length_varuint32_le count, hlength, hreads⟩
  · intro hreferences hfields levels elem helem
    exact weighs_of_document h hreferences hfields helem levels

/-- A struct without fields. -/
def emptyStruct : StructDef := ⟨"nothing", "", []⟩

/-- A document with a struct without fields. -/
def emptyDocument : Document where
  version := "eosio::abi/1.0"
  aliases := []
  structs := [emptyStruct]
  variants := []
  tables := []

theorem array_emptyDocument : ∃ c, ofDocument emptyDocument = .ok c ∧
    (∀ count middle start, Decoder.varuint32.run start = .ok count middle → middle.length < count.toNat →
      ∃ e rest, (c.read (.array (.named "uint8"))).outcome start = (.error e, rest)) ∧
    ∀ count : UInt32, ∃ start items, start.length ≤ 5 ∧ items.length = count.toNat ∧
      (c.read (.array (.named emptyStruct.name))).outcome start = (.ok (.array items), []) := by
  have hfacts : ((ofDocument emptyDocument).toOption.map fun c =>
      (c.weighs 31 (.named "uint8"), c.weighs 31 (.named emptyStruct.name))) = some (true, false) := by
    decide +kernel
  obtain ⟨c, hc, hfacts⟩ := exists_ok_of_toOption_map hfacts
  obtain ⟨hbyte, hnothing⟩ := Prod.mk.inj hfacts
  obtain ⟨-, hbeyond, hweightless, -⟩ := array_within_input hc
  refine ⟨c, hc, fun count middle start => ?_, hweightless 31 (.named emptyStruct.name) hnothing⟩
  exact (hbeyond 31 (.named "uint8")).mp hbyte start count middle

/-- One byte is read as a list of five structs. -/
theorem five_items_of_one_byte : ∃ c, ofDocument emptyDocument = .ok c ∧
    ∃ items, items.length = 5 ∧
      (c.read (.array (.named emptyStruct.name))).outcome [5] = (.ok (.array items), []) := by
  have hfacts : ((ofDocument emptyDocument).toOption.map fun c => c.weighs 31 (.named emptyStruct.name)) =
      some false := by decide +kernel
  obtain ⟨c, hc, hnothing⟩ := exists_ok_of_toOption_map hfacts
  obtain ⟨items, hlength, hreads⟩ := exists_readsAt_of_weightless hnothing 5
  rw [show Encoder.varuint32 5 = [5] by simp [Encoder.varuint32, Encoder.base128]] at hreads
  exact ⟨c, hc, items, hlength, hreads⟩

end Catalog

end StateHistory.Schema
