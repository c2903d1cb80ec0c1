import StateHistory.Proofs.Schema.Declaration

/-! # Aliases and bases

`Document.Renames` goes along the aliases of a document, one name to the next, and `Document.Settles` says
where that leads to within a limit. A struct is based on the struct where the name of its base settles
(`Document.BasedOn`), and its bases, up to one that has none, are its ancestry (`Document.Ancestry`).

`Document.resolveBase` finds out where a base settles (`resolveBase_eq_ok_iff`), and `Document.flatten`
whether there is an ancestry that is not too long and comes to no struct twice (`flatten_eq_ok_iff`). -/

namespace StateHistory.Schema.Document

variable {d : Document}

/-! ### Aliases -/

/-- From one text to another along a number of aliases. -/
inductive Renames (d : Document) : Nat → String → String → Prop
  | refl {s : String} : Renames d 0 s s
  | step {n : Nat} {a : AliasDef} {t : String} : a ∈ d.aliases → Renames d n a.target t →
      Renames d (n + 1) a.name t

/-- Fewer than `room` aliases lead from a text to one that is no alias: to another name, or to a text with
a modifier. -/
def Settles (d : Document) (room : Nat) (s t : String) : Prop :=
  (∃ n < room, d.Renames n s t) ∧ ∀ a ∈ d.aliases, a.name ≠ t

theorem not_settles_zero {s t : String} : ¬ d.Settles 0 s t := by
  rintro ⟨⟨n, hn, -⟩, -⟩
  exact Nat.not_lt_zero n hn

theorem settles_of_plain {room : Nat} {s t : String} (h : ∀ a ∈ d.aliases, a.name ≠ s) :
    d.Settles (room + 1) s t ↔ s = t := by
  constructor
  · rintro ⟨⟨n, -, hpath⟩, -⟩
    cases hpath with
    | refl => rfl
    | step ha _ => exact absurd rfl (h _ ha)
  · rintro rfl
    exact ⟨⟨0, Nat.succ_pos room, .refl⟩, h⟩

theorem WellNamed.settles_of_alias (h : d.WellNamed) {room : Nat} {a : AliasDef} {t : String}
    (ha : a ∈ d.aliases) : d.Settles (room + 1) a.name t ↔ d.Settles room a.target t := by
  constructor
  · rintro ⟨⟨n, hn, hpath⟩, ht⟩
    refine ⟨?_, ht⟩
    generalize hname : a.name = name at hpath
    cases hpath with
    | refl => exact absurd hname (ht a ha)
    | step ha' hrest =>
        rw [h.alias_eq ha ha' hname]
        exact ⟨_, Nat.lt_of_succ_lt_succ hn, hrest⟩
  · rintro ⟨⟨n, hn, hpath⟩, ht⟩
    exact ⟨⟨n + 1, Nat.succ_lt_succ hn, .step ha hpath⟩, ht⟩

/-! ### Bases -/

/-- The struct that a struct is based on. -/
structure BasedOn (d : Document) (s b : StructDef) : Prop where
  has_base : s.base ≠ ""
  declared : b ∈ d.structs
  settles : d.Settles maxChain s.base b.name

/-- The bases of a struct, the nearest first. -/
inductive Ancestry (d : Document) : StructDef → List StructDef → Prop
  | root {s : StructDef} : s.base = "" → Ancestry d s []
  | child {s b : StructDef} {above : List StructDef} : BasedOn d s b → Ancestry d b above →
      Ancestry d s (b :: above)

/-- A struct has bases that end, that come to no struct twice, and that are not too many. -/
structure Inherits (d : Document) (s : StructDef) (above : List StructDef) : Prop where
  ancestry : d.Ancestry s above
  nodup : ((s :: above).map (·.name)).Nodup
  length_le : (s :: above).length ≤ maxChain

theorem Ancestry.mem_structs {s : StructDef} {above : List StructDef} (h : d.Ancestry s above) :
    ∀ b ∈ above, b ∈ d.structs := by
  induction h with
  | root => simp
  | child hbase _ ih => exact List.forall_mem_cons.mpr ⟨hbase.declared, ih⟩

/-- What a struct inherits, its base inherits but for itself. -/
theorem Inherits.of_cons {s b : StructDef} {above : List StructDef} (h : d.Inherits s (b :: above)) :
    d.BasedOn s b ∧ d.Inherits b above := by
  cases h.ancestry with
  | child hb hancestry =>
      exact ⟨hb, hancestry, (List.nodup_cons.mp h.nodup).2, Nat.le_of_succ_le h.length_le⟩

theorem WellNamed.resolveBase_of_alias (h : d.WellNamed) {base : String} {room : Nat} {a : AliasDef}
    (ha : a ∈ d.aliases) :
    resolveBase d.declarations base (room + 1) a.name = resolveBase d.declarations base room a.target := by
  have hlookup : d.declarations.lookup a.name = some (.alias (TypeRef.parse a.target)) :=
    h.lookup_declarations.mpr (alias_mem_declarations.mpr ⟨a, ha, rfl, rfl⟩)
  rw [resolveBase, hlookup]
  dsimp only
  rw [TypeRef.render_parse]

theorem WellNamed.resolveBase_of_plain (h : d.WellNamed) {base : String} {room : Nat} {name : String}
    (hknown : name ∈ d.knownNames) (hplain : ∀ a ∈ d.aliases, a.name ≠ name) :
    resolveBase d.declarations base (room + 1) name = .ok name := by
  rw [resolveBase]
  split
  · rename_i hnone
    exact absurd hknown (lookup_declarations_eq_none.mp hnone)
  · rename_i t hlookup
    obtain ⟨a, ha, hname, -⟩ := alias_mem_declarations.mp (h.lookup_declarations.mp hlookup)
    exact absurd hname (hplain a ha)
  · rfl

theorem resolveBase_of_unknown {base : String} {room : Nat} {name : String} (h : name ∉ d.knownNames) :
    resolveBase d.declarations base (room + 1) name = .error (.unknownType name) := by
  rw [resolveBase, lookup_declarations_eq_none.mpr h]

/-- The type that a base stands for is where its name settles, if that is known. -/
theorem WellNamed.resolveBase_eq_ok_iff (h : d.WellNamed) {base s t : String} {room : Nat} :
    resolveBase d.declarations base room s = .ok t ↔ d.Settles room s t ∧ t ∈ d.knownNames := by
  induction room generalizing s with
  | zero => simp [resolveBase, not_settles_zero]
  | succ room ih =>
      by_cases halias : ∃ a ∈ d.aliases, a.name = s
      · obtain ⟨a, ha, rfl⟩ := halias
        rw [h.resolveBase_of_alias ha, h.settles_of_alias ha, ih]
      · have hplain : ∀ a ∈ d.aliases, a.name ≠ s := fun a ha hname => halias ⟨a, ha, hname⟩
        rw [settles_of_plain hplain]
        by_cases hknown : s ∈ d.knownNames
        · rw [h.resolveBase_of_plain hknown hplain, Except.ok.injEq]
          exact ⟨fun hst => ⟨hst, hst ▸ hknown⟩, And.left⟩
        · rw [resolveBase_of_unknown hknown]
          simp only [reduceCtorEq, false_iff, not_and]
          rintro rfl
          exact hknown

theorem baseOf_of_empty {owner : String} {s : StructDef} (h : s.base = "") :
    d.baseOf owner s = .ok none := by
  rw [baseOf, if_pos (by simp [h])]

theorem WellNamed.baseOf_eq_ok_some_iff (h : d.WellNamed) {owner : String} {s b : StructDef} :
    d.baseOf owner s = .ok (some b) ↔ d.BasedOn s b := by
  by_cases hbase : s.base = ""
  · rw [baseOf_of_empty hbase]
    simp only [Except.ok.injEq, reduceCtorEq, false_iff]
    exact fun hb => hb.has_base hbase
  rw [baseOf, if_neg (by simpa using hbase), bind_eq_ok_iff]
  constructor
  · rintro ⟨t, hresolve, hfind⟩
    split at hfind
    · rename_i b' hb'
      obtain rfl : b' = b := by simpa using hfind
      have hname : b'.name = t := by simpa using List.find?_some hb'
      refine ⟨hbase, List.mem_of_find?_eq_some hb', ?_⟩
      rw [hname]
      exact (h.resolveBase_eq_ok_iff.mp hresolve).1
    · cases hfind
  · rintro ⟨-, hb, hsettles⟩
    have hknown : b.name ∈ d.knownNames := List.mem_append_right _ (name_mem_declaredNames_of_struct hb)
    refine ⟨b.name, h.resolveBase_eq_ok_iff.mpr ⟨hsettles, hknown⟩, ?_⟩
    have hfind : d.structs.find? (·.name == b.name) = some b := by
      obtain ⟨b', hb'⟩ : ∃ b', d.structs.find? (·.name == b.name) = some b' := by
        rw [← Option.isSome_iff_exists, List.find?_isSome]
        exact ⟨b, hb, by simp⟩
      have hname : b'.name = b.name := by simpa using List.find?_some hb'
      rw [hb', h.struct_eq (List.mem_of_find?_eq_some hb') hb hname]
    rw [hfind]

theorem WellNamed.basedOn_unique (h : d.WellNamed) {s b b' : StructDef} (hb : d.BasedOn s b)
    (hb' : d.BasedOn s b') : b = b' := by
  have hfound : d.baseOf s.name s = .ok (some b) := h.baseOf_eq_ok_some_iff.mpr hb
  rw [h.baseOf_eq_ok_some_iff.mpr hb'] at hfound
  exact (Option.some.inj (Except.ok.inj hfound)).symm

theorem baseOf_eq_ok_none_iff {owner : String} {s : StructDef} :
    d.baseOf owner s = .ok none ↔ s.base = "" := by
  refine ⟨fun hnone => ?_, baseOf_of_empty⟩
  by_contra hbase
  rw [baseOf, if_neg (by simpa using hbase), bind_eq_ok_iff] at hnone
  obtain ⟨t, -, hfind⟩ := hnone
  split at hfind <;> simp at hfind

theorem bases_of_empty {owner : String} {room : Nat} {seen : List String} {s : StructDef} (h : s.base = "") :
    d.bases owner room seen s = .ok [] := by
  rw [bases.eq_def]
  dsimp only
  rw [baseOf_of_empty h]
  rfl

/-- A struct that is based on another one has bases if that one is new and there is room for it. -/
theorem WellNamed.bases_eq_ok_iff_of_basedOn (h : d.WellNamed) {owner : String} {room : Nat}
    {seen : List String} {s b : StructDef} {above : List StructDef} (hb : d.BasedOn s b) :
    d.bases owner room seen s = .ok above ↔
      b.name ∉ seen ∧ ∃ room' rest, room = room' + 1 ∧
        d.bases owner room' (b.name :: seen) b = .ok rest ∧ above = b :: rest := by
  rw [bases.eq_def]
  dsimp only
  rw [h.baseOf_eq_ok_some_iff.mpr hb, bind_eq_ok_iff]
  simp only [Except.ok.injEq, exists_eq_left', List.contains_iff_mem]
  by_cases hseen : b.name ∈ seen
  · simp [hseen]
  · rw [if_neg hseen]
    cases room with
    | zero => simp
    | succ room =>
        simp only [bind_eq_ok_iff, pure, Except.pure, Except.ok.injEq]
        constructor
        · rintro ⟨rest, hrest, rfl⟩
          exact ⟨hseen, room, rest, rfl, hrest, rfl⟩
        · rintro ⟨-, room', rest, hroom, hrest, rfl⟩
          obtain rfl := Nat.succ.inj hroom
          exact ⟨rest, hrest, rfl⟩

/-- Bases are found of a struct that has no base, or whose base is known. -/
theorem WellNamed.basedOn_of_bases (h : d.WellNamed) {owner : String} {room : Nat} {seen : List String}
    {s : StructDef} {above : List StructDef} (hbases : d.bases owner room seen s = .ok above) :
    s.base = "" ∨ ∃ b, d.BasedOn s b := by
  rw [bases.eq_def] at hbases
  obtain ⟨found, hfound, -⟩ := bind_eq_ok_iff.mp hbases
  cases found with
  | none => exact .inl (baseOf_eq_ok_none_iff.mp hfound)
  | some b => exact .inr ⟨b, h.baseOf_eq_ok_some_iff.mp hfound⟩

/-- The bases that are found are the ancestry of a struct, as far as there is room and nothing in it has
been seen before. -/
theorem WellNamed.bases_eq_ok_iff (h : d.WellNamed) {owner : String} {room : Nat} {seen : List String}
    {s : StructDef} {above : List StructDef} :
    d.bases owner room seen s = .ok above ↔
      d.Ancestry s above ∧ above.length ≤ room ∧ (above.map (·.name)).Nodup ∧
        ∀ b ∈ above, b.name ∉ seen := by
  constructor
  · intro hbases
    induction room using Nat.strongRecOn generalizing seen s above with
    | ind room ih =>
        rcases h.basedOn_of_bases hbases with hbase | ⟨b, hb⟩
        · rw [bases_of_empty hbase] at hbases
          obtain rfl : [] = above := Except.ok.inj hbases
          exact ⟨.root hbase, Nat.zero_le room, List.nodup_nil, by simp⟩
        · obtain ⟨hfirst, room', rest, rfl, hrest, rfl⟩ := (h.bases_eq_ok_iff_of_basedOn hb).mp hbases
          obtain ⟨hancestry, hlength, hnodup, hnew⟩ := ih room' (Nat.lt_succ_self room') hrest
          refine ⟨.child hb hancestry, Nat.succ_le_succ hlength, ?_, ?_⟩
          · rw [List.map_cons, List.nodup_cons]
            refine ⟨?_, hnodup⟩
            intro hmem
            obtain ⟨b', hb', hname⟩ := List.mem_map.mp hmem
            exact hnew b' hb' (List.mem_cons.mpr (.inl hname))
          · intro b' hb'
            rcases List.mem_cons.mp hb' with rfl | hb'
            · exact hfirst
            · exact fun hseen => hnew b' hb' (List.mem_cons_of_mem _ hseen)
  · rintro ⟨hancestry, hlength, hnodup, hnew⟩
    induction hancestry generalizing room seen with
    | root hbase => exact bases_of_empty hbase
    | @child s b above hb _ ih =>
        rw [h.bases_eq_ok_iff_of_basedOn hb]
        obtain ⟨hfirst, hrest⟩ := List.nodup_cons.mp hnodup
        obtain ⟨room, rfl⟩ : ∃ room', room = room' + 1 := Nat.exists_eq_add_one.mpr (by
          rw [List.length_cons] at hlength
          omega)
        refine ⟨hnew b List.mem_cons_self, room, above, rfl, ih ?_ hrest ?_, rfl⟩
        · rw [List.length_cons] at hlength
          omega
        · intro b' hb' hseen
          rcases List.mem_cons.mp hseen with hname | hseen
          · exact hfirst (List.mem_map.mpr ⟨b', hb', hname⟩)
          · exact hnew b' (List.mem_cons_of_mem _ hb') hseen

theorem WellNamed.flatten_eq_ok_iff (h : d.WellNamed) {s : StructDef} {fields : List Field} :
    d.flatten s = .ok fields ↔
      ∃ above, d.Inherits s above ∧ (above.reverse ++ [s]).flatMap StructDef.ownFields = fields := by
  have hinherits : ∀ above, (d.Ancestry s above ∧ above.length ≤ maxChain - 1 ∧
      (above.map (·.name)).Nodup ∧ ∀ b ∈ above, b.name ∉ [s.name]) ↔ d.Inherits s above := by
    intro above
    have hlength : (s :: above).length ≤ maxChain ↔ above.length ≤ maxChain - 1 := by
      rw [List.length_cons, maxChain]
      omega
    have hnodup : ((s :: above).map (·.name)).Nodup ↔
        (above.map (·.name)).Nodup ∧ ∀ b ∈ above, b.name ∉ [s.name] := by
      rw [List.map_cons, List.nodup_cons, and_comm]
      simp
    constructor
    · rintro ⟨hancestry, hle, hnew⟩
      exact ⟨hancestry, hnodup.mpr hnew, hlength.mpr hle⟩
    · rintro ⟨hancestry, hnew, hle⟩
      exact ⟨hancestry, hlength.mp hle, hnodup.mp hnew⟩
  simp only [flatten, bind_eq_ok_iff, h.bases_eq_ok_iff, hinherits, pure, Except.pure, Except.ok.injEq]

theorem WellNamed.exists_struct_of_mem_flatten (h : d.WellNamed) {s : StructDef} {fields : List Field}
    {field : Field} (hs : s ∈ d.structs) (hfields : d.flatten s = .ok fields) (hmem : field ∈ fields) :
    ∃ b ∈ d.structs, field ∈ b.ownFields := by
  obtain ⟨above, hinherits, rfl⟩ := h.flatten_eq_ok_iff.mp hfields
  obtain ⟨b, hb, hfield⟩ := List.mem_flatMap.mp hmem
  refine ⟨b, ?_, hfield⟩
  rcases List.mem_append.mp hb with hb | hb
  · exact hinherits.ancestry.mem_structs b (List.mem_reverse.mp hb)
  · rwa [List.mem_singleton.mp hb]

theorem WellNamed.mem_flatten_of_mem_ownFields (h : d.WellNamed) {s : StructDef} {fields : List Field}
    {field : Field} (hfields : d.flatten s = .ok fields) (hmem : field ∈ s.ownFields) : field ∈ fields := by
  obtain ⟨above, -, rfl⟩ := h.flatten_eq_ok_iff.mp hfields
  exact List.mem_flatMap.mpr ⟨s, List.mem_append_right _ (List.mem_singleton_self s), hmem⟩

end StateHistory.Schema.Document
