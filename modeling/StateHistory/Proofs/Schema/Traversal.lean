import StateHistory.Proofs.Schema.Grammar

/-! # What reading by schema keeps

Reading a value sequences plain readers along `Catalog.RefersTo`. So a property that plain readers have and that
sequencing keeps carries over to all types, provided that it holds wherever else a reader looks: for the end of the
input at a `$`, and at a name without a layout (`Decoder.Compositional.readWithin`).

Locality is such a property as long as there is no `$`: the same value is read in front of everything else, and
no beginning of the part that it was read off is read, or refused for anything but its length
(`Catalog.read_local`). -/

namespace StateHistory

open Schema

namespace Decoder.Compositional

variable {P : {α : Type} → Decoder α → Prop}

theorem readFields (hP : Compositional P) {read : TypeRef → Decoder Json} (fields : List Field)
    (hend : ∀ f ∈ fields, f.type.isExtension → P atEnd) (hread : ∀ f ∈ fields, P (read f.type))
    (members : List (String × Json)) : P (readFields read fields members) := by
  induction fields generalizing members with
  | nil => exact hP.of_plain (.pure _)
  | cons field fields ih =>
      obtain ⟨hfield, hfields⟩ := List.forall_mem_cons.mp hend
      obtain ⟨hfirst, hrest⟩ := List.forall_mem_cons.mp hread
      by_cases hextension : field.type.isExtension
      · refine hP.bind (hfield hextension) fun ended => ?_
        split
        · exact hP.of_plain (.pure _)
        · exact hP.bind hfirst fun value => ih hfields hrest _
      · rw [Catalog.readFields_cons (by simpa using hextension)]
        exact hP.bind hfirst fun value => ih hfields hrest _

variable {c : Catalog} {Q : TypeRef → Prop}

/-- Reading has a property of plain readers if it has it wherever it looks for the end of the input or for a name.
`Q` bounds the types that are met on the way. -/
theorem readWithin (hP : Compositional P) (hstep : ∀ {t u}, Q t → c.RefersTo t u → Q u)
    (hend : ∀ {t}, Q t → t.isExtension → P atEnd)
    (hunknown : ∀ {name}, Q (.named name) → c.find? name = none →
      P (throw (.unknownType name) : Decoder Json)) (levels : Nat) {t : TypeRef} (ht : Q t) :
    P (c.readWithin levels t) := by
  induction levels generalizing t with
  | zero => exact hP.of_plain (.throw fun _ => .recursionLimit)
  | succ levels ih =>
      have inside : ∀ {u}, c.RefersTo t u → P (c.readWithin levels u) := fun hu => ih (hstep ht hu)
      cases t with
      | optional inner => exact hP.flagged (inside .optional) _
      | array inner => exact hP.map (hP.vector (inside .array)) _
      | extension inner =>
          refine hP.bind (hend ht rfl) fun ended => ?_
          split
          · exact hP.of_plain (.pure _)
          · exact inside .extension
      | named name =>
          rw [Catalog.readWithin]
          cases hfind : c.find? name with
          | none => exact hunknown ht hfind
          | some layout =>
              have hrefers : ∀ u ∈ layout.references, c.RefersTo (.named name) u := fun u hu => .named hfind hu
              cases layout with
              | builtin type => exact hP.of_plain type.plain_decoder
              | «alias» target => exact inside (hrefers target (List.mem_singleton_self _))
              | struct fields =>
                  have hfields : ∀ f ∈ fields, c.RefersTo (.named name) f.type := fun f hf =>
                    hrefers _ (List.mem_map_of_mem hf)
                  exact hP.map (hP.readFields fields (fun f hf => hend (hstep ht (hfields f hf)))
                    (fun f hf => inside (hfields f hf)) []) _
              | variant cases =>
                  refine hP.bind (hP.of_plain plain_varuint32) fun tag => ?_
                  split
                  · exact hP.of_plain (.throw fun _ => .invalidVariantIndex)
                  · rename_i case hcase
                    exact hP.map (inside (hrefers case (List.mem_of_getElem? hcase))) _

end Decoder.Compositional

namespace Schema.Catalog

variable {c : Catalog}

theorem local_read {t : TypeRef} (ht : c.Extensionless t) : (c.read t).Local := by
  refine Decoder.compositional_local.readWithin (fun hu hstep => hu.of_refersTo hstep) ?_ (fun _ _ => .throw _)
    maxLevels ht
  intro u hu hextension
  rw [hu.isExtension] at hextension
  cases hextension

/-- The part `w` of an input that a value without `$` was read off is read as this value in front of every other
byte string, and wherever it is cut, what comes before the cut is too short and nothing else. -/
theorem read_local {t : TypeRef} (ht : c.Extensionless t) {input rest : Bytes} {v : Json}
    (h : (c.read t).outcome input = (.ok v, rest)) :
    ∃ w, input = w ++ rest ∧ (∀ s, (c.read t).outcome (w ++ s) = (.ok v, s)) ∧
      ∀ p, p <+: w → p ≠ w →
        ∃ needed remaining left, (c.read t).outcome p = (.error (.truncated needed remaining), left) :=
  (local_read ht).outcome h

/-- A row, cut in the number of its block. -/
theorem read_local_blocksDocument : ∃ c v, ofDocument blocksDocument = .ok c ∧
    c.Extensionless (TypeRef.parse "row") ∧
      (c.read (TypeRef.parse "row")).outcome [1, 1, 7, 0, 0, 0, 0, 0xff] = (.ok v, [0xff]) ∧
      (∀ s, (c.read (TypeRef.parse "row")).outcome ([1, 1, 7, 0, 0, 0, 0] ++ s) = (.ok v, s)) ∧
      ∃ needed remaining left,
        (c.read (TypeRef.parse "row")).outcome [1, 1, 7, 0] = (.error (.truncated needed remaining), left) := by
  have hfacts : ((ofDocument blocksDocument).toOption.map fun c =>
      let o := (c.read (TypeRef.parse "row")).outcome [1, 1, 7, 0, 0, 0, 0, 0xff]
      (o.1.toOption.map fun _ => (), o.2)) = some (some (), [0xff]) := by decide +kernel
  obtain ⟨c, hc, hfacts⟩ := exists_ok_of_toOption_map hfacts
  obtain ⟨hvalue, hrest⟩ := Prod.mk.inj hfacts
  obtain ⟨v, hv, -⟩ := exists_ok_of_toOption_map hvalue
  have hread : (c.read (TypeRef.parse "row")).outcome [1, 1, 7, 0, 0, 0, 0, 0xff] = (.ok v, [0xff]) :=
    Prod.ext hv hrest
  have hplain : c.Extensionless (TypeRef.parse "row") :=
    extensionless_of_references hc (by decide +kernel) (by decide +kernel)
  obtain ⟨w, hsplit, hsame, hshort⟩ := read_local hplain hread
  obtain rfl : [1, 1, 7, 0, 0, 0, 0] = w := List.append_cancel_right hsplit
  exact ⟨c, v, hc, hplain, hread, hsame, hshort [1, 1, 7, 0] ⟨_, rfl⟩ nofun⟩

end Schema.Catalog

end StateHistory
