import Mathlib.Data.List.Basic
import StateHistory.Schema.TypeRef

/-! # The texts of type references

Every text is the text of one reference (`render_parse`), whose name is what is left of the text when all
modifiers are taken off (`baseName_parse_eq_iff`). A text can be declared as a name exactly if it is not
empty and has no modifiers (`isName_iff`). -/

namespace StateHistory.TypeRef

/-- Whether a text ends in a modifier. -/
def EndsInModifier (s : String) : Prop :=
  "$".toList <:+ s.toList ∨ "[]".toList <:+ s.toList ∨ "?".toList <:+ s.toList

/-- The texts that are a name with any number of modifiers behind it. -/
inductive Modified (name : String) : String → Prop
  | plain : Modified name name
  | optional {s : String} : Modified name s → Modified name (s ++ "?")
  | array {s : String} : Modified name s → Modified name (s ++ "[]")
  | extension {s : String} : Modified name s → Modified name (s ++ "$")

theorem render_ofReversed (cs : List Char) : (ofReversed cs).render = String.ofList cs.reverse := by
  induction cs using ofReversed.induct with
  | case1 cs ih =>
      rw [ofReversed, render, ih, ← String.toList_inj]
      simp
  | case2 cs ih =>
      rw [ofReversed, render, ih, ← String.toList_inj]
      simp
  | case3 cs ih =>
      rw [ofReversed, render, ih, ← String.toList_inj]
      simp
  | case4 cs h1 h2 h3 =>
      rw [ofReversed.eq_4 cs h1 h2 h3, render]

/-- Nothing of a text is lost when it is parsed. -/
theorem render_parse (s : String) : (parse s).render = s := by
  rw [parse, render_ofReversed, List.reverse_reverse, String.ofList_toList]

theorem endsInModifier_ofList_reverse (cs : List Char) :
    EndsInModifier (String.ofList cs.reverse) ↔
      (∃ r, cs = '$' :: r) ∨ (∃ r, cs = ']' :: '[' :: r) ∨ ∃ r, cs = '?' :: r := by
  have suffix : ∀ m : List Char, m.reverse <:+ (String.ofList cs.reverse).toList ↔ ∃ r, cs = m ++ r := by
    intro m
    rw [String.toList_ofList, List.reverse_suffix]
    exact ⟨fun ⟨r, h⟩ => ⟨r, h.symm⟩, fun ⟨r, h⟩ => ⟨r, h.symm⟩⟩
  exact or_congr (suffix ['$']) (or_congr (suffix [']', '[']) (suffix ['?']))

theorem not_endsInModifier_baseName_ofReversed (cs : List Char) :
    ¬ EndsInModifier (ofReversed cs).baseName := by
  induction cs using ofReversed.induct with
  | case1 cs ih => rwa [ofReversed, baseName]
  | case2 cs ih => rwa [ofReversed, baseName]
  | case3 cs ih => rwa [ofReversed, baseName]
  | case4 cs h1 h2 h3 =>
      rw [ofReversed.eq_4 cs h1 h2 h3, baseName, endsInModifier_ofList_reverse]
      rintro (⟨r, h⟩ | ⟨r, h⟩ | ⟨r, h⟩)
      · exact h1 r h
      · exact h2 r h
      · exact h3 r h

/-- No modifier is left on the name of a parsed reference. -/
theorem not_endsInModifier_baseName (s : String) : ¬ EndsInModifier (parse s).baseName :=
  not_endsInModifier_baseName_ofReversed _

/-- A text without modifiers is the name that it refers to. -/
theorem parse_eq_named_iff {s name : String} : parse s = named name ↔ s = name ∧ ¬ EndsInModifier s := by
  constructor
  · intro h
    have hname : s = name := by rw [← render_parse s, h, render]
    refine ⟨hname, ?_⟩
    have hbase := not_endsInModifier_baseName s
    rwa [h, baseName, ← hname] at hbase
  · rintro ⟨rfl, h⟩
    obtain ⟨cs, rfl⟩ : ∃ cs : List Char, s = String.ofList cs.reverse :=
      ⟨s.toList.reverse, by rw [List.reverse_reverse, String.ofList_toList]⟩
    rw [endsInModifier_ofList_reverse] at h
    rw [parse, String.toList_ofList, List.reverse_reverse]
    refine ofReversed.eq_4 cs ?_ ?_ ?_
    · exact fun r hr => h (.inl ⟨r, hr⟩)
    · exact fun r hr => h (.inr (.inl ⟨r, hr⟩))
    · exact fun r hr => h (.inr (.inr ⟨r, hr⟩))

theorem parse_name {name : String} (h : ¬ EndsInModifier name) : parse name = named name :=
  parse_eq_named_iff.mpr ⟨rfl, h⟩

/-! ### Names below modifiers -/

theorem modified_render (t : TypeRef) : Modified t.baseName t.render := by
  induction t with
  | named name => exact .plain
  | optional inner ih => exact ih.optional
  | array inner ih => exact ih.array
  | extension inner ih => exact ih.extension

theorem parse_append_optional (s : String) : parse (s ++ "?") = optional (parse s) := by
  simp [parse, ofReversed]

theorem parse_append_array (s : String) : parse (s ++ "[]") = array (parse s) := by
  simp [parse, ofReversed]

theorem parse_append_extension (s : String) : parse (s ++ "$") = extension (parse s) := by
  simp [parse, ofReversed]

/-- The name of a reference is what is left of its text when all modifiers are taken off. -/
theorem baseName_parse_eq_iff {name s : String} :
    (parse s).baseName = name ↔ Modified name s ∧ ¬ EndsInModifier name := by
  constructor
  · rintro rfl
    have h := modified_render (parse s)
    rw [render_parse] at h
    exact ⟨h, not_endsInModifier_baseName s⟩
  · rintro ⟨h, hname⟩
    induction h with
    | plain => rw [parse_name hname, baseName]
    | optional _ ih => rwa [parse_append_optional, baseName]
    | array _ ih => rwa [parse_append_array, baseName]
    | extension _ ih => rwa [parse_append_extension, baseName]

/-! ### Names -/

theorem isName_iff {s : String} : isName s ↔ s ≠ "" ∧ ¬ EndsInModifier s := by
  have hempty : s.isEmpty ↔ s = "" := String.isEmpty_iff
  rw [isName, Bool.and_eq_true, beq_iff_eq, parse_eq_named_iff, Bool.not_eq_true', ← Bool.not_eq_true, hempty]
  simp

end StateHistory.TypeRef
