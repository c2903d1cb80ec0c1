import StateHistory.Proofs.Schema.Place
import StateHistory.Proofs.Schema.Acceptance

/-! # Levels and aliases

The limit on levels only ever cuts reading short. A reader outlasts another one if it ends in the same way
wherever that one does not end for want of levels (`Decoder.Outlasts`). Sequencing keeps this, and since the
first failure ends a reader, a type that is read with more levels outlasts the same type read with fewer
(`Schema.Catalog.outlasts_readWithin`). So what a value is depends neither on the number of aliases in front of
it nor on how far inside of others it stands (`Schema.Catalog.read_at_any_depth`). -/

namespace StateHistory

open Schema

namespace Decoder

variable {α β : Type}

/-- Wherever the second reader does not end for want of levels, the first one ends in the same way and leaves
the same input. -/
def Outlasts (d d' : Decoder α) : Prop :=
  ∀ input, (∃ rest, d'.run input = .error .recursionLimit rest) ∨ d.run input = d'.run input

theorem Outlasts.refl (d : Decoder α) : d.Outlasts d := fun _ => .inr rfl

theorem outlasts_throw (d : Decoder α) : d.Outlasts (throw .recursionLimit) := fun input => .inl ⟨input, rfl⟩

theorem Outlasts.bind {d d' : Decoder α} {f f' : α → Decoder β} (hd : d.Outlasts d')
    (hf : ∀ v, (f v).Outlasts (f' v)) : (d >>= f).Outlasts (d' >>= f') := by
  intro input
  rw [EStateM.run_bind, EStateM.run_bind]
  rcases hd input with ⟨rest, hexhausted⟩ | hsame
  · rw [hexhausted]
    exact .inl ⟨rest, rfl⟩
  · rw [hsame]
    cases d'.run input with
    | ok v middle => exact hf v middle
    | error e middle => exact .inr rfl

theorem Outlasts.outcome_eq {d d' : Decoder α} (h : d.Outlasts d') {input : Bytes}
    (hended : (d'.outcome input).1 ≠ .error .recursionLimit) : d.outcome input = d'.outcome input := by
  rcases h input with ⟨rest, hexhausted⟩ | hsame
  · rw [outcome_eq_error_iff.mpr hexhausted] at hended
    exact absurd rfl hended
  · rw [outcome, hsame, outcome]

theorem Outlasts.timesOnto {d d' : Decoder α} (h : d.Outlasts d') (n : Nat) (read : List α) :
    (timesOnto d n read).Outlasts (timesOnto d' n read) := by
  induction n generalizing read with
  | zero => exact .refl _
  | succ n ih => exact h.bind fun v => ih (v :: read)

theorem Outlasts.vector {d d' : Decoder α} (h : d.Outlasts d') : (vector d).Outlasts (vector d') :=
  (Outlasts.refl varuint32).bind fun count => h.timesOnto count.toNat []

end Decoder

namespace Schema

theorem outlasts_readFields {read read' : TypeRef → Decoder Json} (h : ∀ t, (read t).Outlasts (read' t))
    (fields : List Field) (members : List (String × Json)) :
    (readFields read fields members).Outlasts (readFields read' fields members) := by
  induction fields generalizing members with
  | nil => exact .refl _
  | cons field fields ih =>
      rw [readFields, readFields]
      refine (Decoder.Outlasts.refl Decoder.atEnd).bind fun ended => ?_
      split
      · exact .refl _
      · exact (h field.type).bind fun value => ih _

namespace Catalog

variable {c : Catalog}

/-- The same type, read with more levels. -/
theorem outlasts_readWithin {levels levels' : Nat} (hle : levels ≤ levels') (t : TypeRef) :
    (c.readWithin levels' t).Outlasts (c.readWithin levels t) := by
  -- Every step inward takes one level on both sides, so the difference stays.
  induction levels generalizing levels' t with
  | zero => exact Decoder.outlasts_throw _
  | succ levels ih =>
      obtain ⟨levels', rfl⟩ := Nat.exists_eq_add_one.mpr (Nat.zero_lt_of_lt hle)
      have inside : ∀ u, (c.readWithin levels' u).Outlasts (c.readWithin levels u) :=
        ih (Nat.le_of_succ_le_succ hle)
      cases t with
      | optional inner =>
          refine (Decoder.Outlasts.refl Decoder.bool).bind fun there => ?_
          split
          · exact inside inner
          · exact .refl _
      | array inner => exact (inside inner).vector.bind fun items => .refl _
      | extension inner =>
          refine (Decoder.Outlasts.refl Decoder.atEnd).bind fun ended => ?_
          split
          · exact .refl _
          · exact inside inner
      | named name =>
          rw [readWithin, readWithin]
          cases c.find? name with
          | none => exact .refl _
          | some layout =>
              cases layout with
              | builtin type => exact .refl _
              | «alias» target => exact inside target
              | struct fields => exact (outlasts_readFields inside fields []).bind fun members => .refl _
              | variant cases =>
                  refine (Decoder.Outlasts.refl Decoder.varuint32).bind fun tag => ?_
                  split
                  · exact .refl _
                  · rename_i case _
                    exact (inside case).bind fun value => .refl _

theorem Inward.levels_lt {p q : Place} (h : c.Inward p q) : q.levels < p.levels := by
  cases h <;> exact Nat.lt_succ_self _

theorem ComesTo.levels_le {p q : Place} (h : c.ComesTo p q) : q.levels ≤ p.levels := by
  induction h with
  | refl => exact Nat.le_refl _
  | tail _ hstep ih => exact Nat.le_trans (Nat.le_of_lt hstep.levels_lt) ih

/-- However many levels a type is read with: as long as they do not run out, it is read in the same way with
more of them. An alias is read as its target, and what stands inside of another value is read as it is alone. -/
theorem read_at_any_depth (c : Catalog) :
    (∀ levels levels' t input, levels ≤ levels' →
        ((c.readWithin levels t).outcome input).1 ≠ .error .recursionLimit →
          (c.readWithin levels' t).outcome input = (c.readWithin levels t).outcome input) ∧
      (∀ name target input, c.find? name = some (.alias target) →
        ((c.read (.named name)).outcome input).1 ≠ .error .recursionLimit →
          (c.read target).outcome input = (c.read (.named name)).outcome input) ∧
      ∀ t input p v rest, c.ComesTo ⟨maxLevels, t, input⟩ p → c.ReadsAt p v rest →
        (c.read p.type).outcome p.input = (.ok v, rest) := by
  refine ⟨fun levels levels' t input hle hended => (outlasts_readWithin hle t).outcome_eq hended, ?_, ?_⟩
  · intro name target input hfind hended
    have hstep : c.read (.named name) = c.readWithin (maxLevels - 1) target := by
      rw [read, maxLevels, readWithin, hfind]
    rw [hstep] at hended ⊢
    exact (outlasts_readWithin (Nat.sub_le maxLevels 1) target).outcome_eq hended
  · intro t input p v rest hcomes hreads
    rw [ReadsAt] at hreads
    have hended : ((c.readWithin p.levels p.type).outcome p.input).1 ≠ .error .recursionLimit := by
      rw [hreads]
      rintro ⟨⟩
    exact ((outlasts_readWithin hcomes.levels_le p.type).outcome_eq hended).trans hreads

/-- A row with five levels and more, and the number of its block inside of it and alone. -/
theorem read_at_any_depth_blocksDocument : ∃ c, ofDocument blocksDocument = .ok c ∧
    (c.readWithin maxLevels (.named "row")).outcome [1, 1, 7, 0, 0, 0, 0] =
      (c.readWithin 5 (.named "row")).outcome [1, 1, 7, 0, 0, 0, 0] ∧
    c.find? "height" = some (.alias (.named "uint32")) ∧
    (c.read (.named "uint32")).outcome [7, 0, 0, 0] = (c.read (.named "height")).outcome [7, 0, 0, 0] ∧
    c.ComesTo ⟨maxLevels, .named "row", [1, 1, 7, 0, 0, 0, 0]⟩ ⟨29, .named "height", [7, 0, 0, 0, 0]⟩ ∧
    c.ReadsAt ⟨29, .named "height", [7, 0, 0, 0, 0]⟩ (.integer 7) [0] ∧
    (c.read (.named "height")).outcome [7, 0, 0, 0, 0] = (.ok (.integer 7), [0]) := by
  have hfacts : ((ofDocument blocksDocument).toOption.map fun c =>
      (["row", "block", "height", "uint32"].map c.find?,
        ((c.readWithin 5 (.named "row")).outcome [1, 1, 7, 0, 0, 0, 0]).1.toOption.isSome)) =
      some ([some (.variant [.named "block", .optional (.named "block")]),
        some (.struct [⟨"number", .named "height"⟩, ⟨"parents", .array (.named "checksum256")⟩]),
        some (.alias (.named "uint32")), some (.builtin .uint32)], true) := by decide +kernel
  obtain ⟨c, hc, hfacts⟩ := exists_ok_of_toOption_map hfacts
  obtain ⟨⟨hrow, hblock, hheight, huint32⟩, hfive⟩ : (_ ∧ _ ∧ _ ∧ _) ∧ _ := by simpa using hfacts
  obtain ⟨hlevels, halias, hinside⟩ := read_at_any_depth c
  have hended : ((c.readWithin 5 (.named "row")).outcome [1, 1, 7, 0, 0, 0, 0]).1 ≠ .error .recursionLimit := by
    intro hexhausted
    rw [hexhausted] at hfive
    cases hfive
  have hnumber (levels : Nat) (s : Bytes) :
      (c.readWithin (levels + 2) (.named "height")).outcome ([7, 0, 0, 0] ++ s) = (.ok (.integer 7), s) := by
    rw [readWithin, hheight]
    dsimp only
    rw [readWithin, huint32]
    rfl
  have hfield : c.Inward ⟨30, .named "block", [7, 0, 0, 0, 0]⟩ ⟨29, .named "height", [7, 0, 0, 0, 0]⟩ :=
    @Inward.field c 29 "block" [] _ _ _ _ hblock .nil fun _ => List.cons_ne_nil _ _
  have hcomes :
      c.ComesTo ⟨maxLevels, .named "row", [1, 1, 7, 0, 0, 0, 0]⟩ ⟨29, .named "height", [7, 0, 0, 0, 0]⟩ :=
    .tail (.tail (.tail .refl (.case hrow rfl rfl)) (.present rfl)) hfield
  have hwhole : (c.read (.named "height")).outcome [7, 0, 0, 0] = (.ok (.integer 7), []) := hnumber 30 []
  refine ⟨c, hc, hlevels 5 maxLevels _ _ (by decide) hended, hheight, halias _ _ _ hheight ?_, hcomes,
    hnumber 27 [0], hinside _ _ _ _ _ hcomes (hnumber 27 [0])⟩
  rw [hwhole]
  rintro ⟨⟩

end Catalog

end Schema

end StateHistory
