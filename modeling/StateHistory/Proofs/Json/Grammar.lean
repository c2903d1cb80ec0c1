import Mathlib.Data.Bool.AllAny
import StateHistory.Json.Tree
import StateHistory.Proofs.Text.Digits

/-! # The grammar of JSON texts

What a JSON text spells, as a grammar of its own: `Spells part cs rest` says that the characters `cs` begin with a
spelling of `part` and that `rest` follows it. Blanks may stand around every value and key, each character of a text
may be written in every way in which it can be escaped, and a numeral in every form that numerals have.

The reader follows the grammar (`Tree.parse?_of_spelledBy`): whatever a text spells is what it is read as, however
deeply its values are nested. -/

namespace StateHistory.Json

variable {cs ds rest : List Char} {s : Option (List Char)}

/-! ### Blanks -/

/-- What follows some blanks. -/
def Blanks (cs rest : List Char) : Prop := ∃ blanks, (∀ c ∈ blanks, Tree.isBlank c) ∧ cs = blanks ++ rest

theorem Blanks.skipBlanks_eq (h : Blanks cs rest) : Tree.skipBlanks cs = Tree.skipBlanks rest := by
  obtain ⟨blanks, hblanks, rfl⟩ := h
  exact List.dropWhile_append_of_pos hblanks

theorem Blanks.length_le (h : Blanks cs rest) : rest.length ≤ cs.length := by
  obtain ⟨blanks, -, rfl⟩ := h
  rw [List.length_append]
  omega

/-! ### Numerals -/

/-- The digits of a numeral. -/
def AreDigits (ds : List Char) : Prop := ∀ d ∈ ds, Digits.isDigit 10 d

/-- The exponent of a numeral: a mark, a sign at will, and digits. -/
structure ExponentText where
  mark : Char
  sign : List Char
  digits : List Char
  mark_mem : mark ∈ ['e', 'E']
  sign_mem : sign ∈ [[], ['+'], ['-']]
  digits_ne_nil : digits ≠ []
  areDigits : AreDigits digits

/-- A numeral: a sign at will, digits without a needless zero in front, places behind a point, and an exponent. -/
structure NumeralText where
  negative : Bool
  whole : List Char
  places : List Char
  exponent : Option ExponentText
  whole_ne_nil : whole ≠ []
  whole_digits : AreDigits whole
  zero_alone : whole.head? = some '0' → whole.length = 1
  places_digits : AreDigits places

namespace ExponentText

/-- The characters of an exponent. -/
def chars (e : ExponentText) : List Char := e.mark :: (e.sign ++ e.digits)

/-- The number of an exponent. -/
def value (e : ExponentText) : Int :=
  if e.sign = ['-'] then -(Digits.toNat 10 e.digits : Int) else Digits.toNat 10 e.digits

end ExponentText

namespace NumeralText

/-- The characters of a numeral behind its sign. -/
def body (n : NumeralText) : List Char :=
  n.whole ++ ((if n.places = [] then [] else '.' :: n.places) ++ (n.exponent.map ExponentText.chars).getD [])

/-- The characters of a numeral. -/
def chars (n : NumeralText) : List Char := if n.negative then '-' :: n.body else n.body

/-- What a numeral says. -/
def value (n : NumeralText) : Numeral where
  negative := n.negative
  digits := Digits.toNat 10 (n.whole ++ n.places)
  exponent := (n.exponent.map ExponentText.value).getD 0 - n.places.length
  integral := n.places.isEmpty && n.exponent.isNone

end NumeralText

/-- Characters that do not go on with a numeral. -/
def Stops (cs : List Char) : Prop := ∀ c ∈ cs.head?, Digits.isDigit 10 c = false ∧ c ≠ '.' ∧ c ≠ 'e' ∧ c ≠ 'E'

theorem span_append (hds : AreDigits ds) (hrest : ∀ c ∈ rest.head?, Digits.isDigit 10 c = false) :
    Digits.span 10 (ds ++ rest) = (ds, rest) := by
  rw [Digits.span, List.takeWhile_append_of_pos hds, List.dropWhile_append_of_pos hds]
  cases rest with
  | nil => simp
  | cons c cs =>
      have hc := hrest c rfl
      rw [List.takeWhile_cons_of_neg (by rw [hc]; decide), List.dropWhile_cons_of_neg (by rw [hc]; decide),
        List.append_nil]

theorem exponentPart?_none (h : Stops rest) : Tree.exponentPart? rest = some (0, false, rest) := by
  cases rest with
  | nil => rfl
  | cons c cs =>
      obtain ⟨-, -, he, hE⟩ := h c rfl
      rw [Tree.exponentPart?]
      · rintro cs' heq
        exact he (List.cons.inj heq).1
      · rintro cs' heq
        exact hE (List.cons.inj heq).1

theorem AreDigits.append_ne_cons {c : Char} (h : AreDigits ds) (hne : ds ≠ []) (hc : Digits.isDigit 10 c = false)
    (rest cs : List Char) : ds ++ rest = c :: cs → False := by
  intro heq
  obtain ⟨d, ds, rfl⟩ := List.exists_cons_of_ne_nil hne
  have hd := h d (List.mem_cons_self ..)
  rw [(List.cons.inj heq).1, hc] at hd
  cases hd

theorem exponentPart?_chars (e : ExponentText) (h : Stops rest) :
    Tree.exponentPart? (e.chars ++ rest) = some (e.value, true, rest) := by
  obtain ⟨mark, sign, digits, hmark, hsign, hne, hdigits⟩ := e
  have hspan := span_append hdigits fun c hc => (h c hc).1
  have hempty : digits.isEmpty = false := by simpa using hne
  have hminus := hdigits.append_ne_cons hne (by decide : Digits.isDigit 10 '-' = false) rest
  have hplus := hdigits.append_ne_cons hne (by decide : Digits.isDigit 10 '+' = false) rest
  simp only [List.mem_cons, List.not_mem_nil, or_false] at hmark hsign
  rw [ExponentText.chars, ExponentText.value, List.cons_append, List.append_assoc]
  rcases hmark with rfl | rfl <;> rcases hsign with rfl | rfl | rfl
  all_goals
    dsimp only [List.nil_append, List.cons_append]
    rw [Tree.exponentPart?]
    · rw [hspan]
      simp [hempty]
    all_goals first | exact hminus | exact hplus

/-- What stands behind the digits of a numeral. -/
theorem exponentPart?_getD (e : Option ExponentText) (h : Stops rest) :
    Tree.exponentPart? ((e.map ExponentText.chars).getD [] ++ rest) =
      some ((e.map ExponentText.value).getD 0, e.isSome, rest) := by
  cases e with
  | none => exact exponentPart?_none h
  | some e => exact exponentPart?_chars e h

theorem head?_exponent (e : Option ExponentText) (h : Stops rest) :
    ∀ c ∈ ((e.map ExponentText.chars).getD [] ++ rest).head?, Digits.isDigit 10 c = false ∧ c ≠ '.' := by
  intro c hc
  cases e with
  | none => exact ⟨(h c hc).1, (h c hc).2.1⟩
  | some e =>
      obtain rfl : e.mark = c := Option.some.inj hc
      have hmarks : ∀ c ∈ ['e', 'E'], Digits.isDigit 10 c = false ∧ c ≠ '.' := List.all_iff_forall_prop.mp (by decide)
      exact hmarks _ e.mark_mem

theorem unsignedNumeral?_body (n : NumeralText) (h : Stops rest) :
    Tree.unsignedNumeral? n.negative (n.body ++ rest) = some (n.value, rest) := by
  obtain ⟨negative, whole, places, exponent, hne, hwhole, hzero, hplaces⟩ := n
  have hexponent := exponentPart?_getD exponent h
  have hhead := head?_exponent exponent h
  generalize htail : (exponent.map ExponentText.chars).getD [] ++ rest = tail at hexponent hhead
  have hbody : NumeralText.body ⟨negative, whole, places, exponent, hne, hwhole, hzero, hplaces⟩ ++ rest =
      whole ++ ((if places = [] then [] else '.' :: places) ++ tail) := by
    rw [NumeralText.body, List.append_assoc, List.append_assoc, htail]
  have hlead : (whole.isEmpty || (whole.head? == some '0' && whole.length != 1)) = false := by
    have hempty : whole.isEmpty = false := by simpa using hne
    rw [hempty, Bool.false_or]
    by_cases hhead : whole.head? = some '0'
    · rw [hzero hhead]
      simp
    · rw [beq_false_of_ne hhead, Bool.false_and]
  rw [hbody, NumeralText.value]
  by_cases hnil : places = []
  · have hspan := span_append hwhole fun c hc => (hhead c hc).1
    subst hnil
    rw [if_pos rfl, List.nil_append, Tree.unsignedNumeral?, hspan]
    dsimp only
    rw [hlead, if_neg Bool.false_ne_true]
    split
    · exact absurd rfl (hhead '.' rfl).2
    · dsimp only [bind, Option.bind, pure]
      rw [hexponent]
      cases exponent <;> rfl
  · have hpoint : ∀ c ∈ ('.' :: (places ++ tail)).head?, Digits.isDigit 10 c = false := by
      intro c hc
      obtain rfl := Option.some.inj hc
      decide
    have hspan := span_append hwhole hpoint
    have hplaces := span_append hplaces fun c hc => (hhead c hc).1
    have hempty : places.isEmpty = false := by simpa using hnil
    rw [if_neg hnil, List.cons_append, Tree.unsignedNumeral?, hspan]
    dsimp only
    rw [hlead, if_neg Bool.false_ne_true]
    split
    · rename_i heq
      obtain rfl := (List.cons.inj heq).2
      rw [hplaces, hempty, if_neg Bool.false_ne_true]
      dsimp only [bind, Option.bind, pure]
      rw [hexponent, hempty, Bool.false_and]
      rfl
    · rename_i hother
      exact absurd rfl (hother _)

/-! ### Texts -/

/-- Four hexadecimal digits and the number that they spell. -/
def IsUnit (ds : List Char) (u : Nat) : Prop := ds.length = 4 ∧ Digits.toNat? 16 ds = some u

/-- The escapes of one letter. -/
def escapes : List (Char × Char) :=
  [('"', '"'), ('\\', '\\'), ('/', '/'), ('b', '\x08'), ('f', '\x0c'), ('n', '\n'), ('r', '\r'), ('t', '\t')]

/-- Whether the escape of the second half of a surrogate pair stands at the front. -/
def StartsLowHalf (cs : List Char) : Prop :=
  ∃ ds u rest, cs = '\\' :: 'u' :: (ds ++ rest) ∧ IsUnit ds u ∧ 0xdc00 ≤ u ∧ u < 0xe000

/-- One character of a text: as it is, escaped by a letter or by its number, or by the two halves of its number. The
escape of a half alone is a character that cannot be read. -/
inductive TextChar : Option Char → List Char → List Char → Prop
  | plain {c : Char} {rest : List Char} (hc : 32 ≤ c.toNat ∧ c ≠ '"' ∧ c ≠ '\\') : TextChar (some c) (c :: rest) rest
  | escape {x c : Char} {rest : List Char} (hc : (x, c) ∈ escapes) : TextChar (some c) ('\\' :: x :: rest) rest
  | unit {ds rest : List Char} {u : Nat} (hu : IsUnit ds u) (hwhole : u < 0xd800 ∨ 0xe000 ≤ u) :
      TextChar (some (Char.ofNat u)) ('\\' :: 'u' :: (ds ++ rest)) rest
  | pair {ds es rest : List Char} {u v : Nat} (hu : IsUnit ds u) (hhigh : 0xd800 ≤ u ∧ u < 0xdc00)
      (hv : IsUnit es v) (hlow : 0xdc00 ≤ v ∧ v < 0xe000) :
      TextChar (some (Char.ofNat (0x10000 + 1024 * (u - 0xd800) + (v - 0xdc00))))
        ('\\' :: 'u' :: (ds ++ '\\' :: 'u' :: (es ++ rest))) rest
  | half {ds rest : List Char} {u : Nat} (hu : IsUnit ds u) (hhalf : 0xd800 ≤ u ∧ u < 0xe000)
      (hlone : u < 0xdc00 → ¬ StartsLowHalf rest) :
      TextChar none ('\\' :: 'u' :: (ds ++ rest)) rest

/-- The characters of a text behind its opening quote. A text with a character that cannot be read is `none`. -/
inductive TextBody : Option (List Char) → List Char → List Char → Prop
  | close {rest : List Char} : TextBody (some []) ('"' :: rest) rest
  | char {cs ds rest : List Char} {s : Option (List Char)} {c : Option Char} (hc : TextChar c cs ds)
      (h : TextBody s ds rest) :
      TextBody (c.bind fun c => s.map (c :: ·)) cs rest

theorem IsUnit.unit?_append {u : Nat} (h : IsUnit ds u) (rest : List Char) :
    Tree.unit? (ds ++ rest) = some (u, rest) := by
  obtain ⟨hlength, hu⟩ := h
  match ds, hlength with
  | [a, b, c, d], _ =>
      rw [List.cons_append, List.cons_append, List.cons_append, List.cons_append, List.nil_append, Tree.unit?, hu]
      rfl

theorem lowHalf?_unit {v : Nat} (h : IsUnit ds v) (hlow : 0xdc00 ≤ v ∧ v < 0xe000) (rest : List Char) :
    Tree.lowHalf? ('\\' :: 'u' :: (ds ++ rest)) = some (v, rest) := by
  rw [Tree.lowHalf?, h.unit?_append]
  exact if_pos hlow

theorem exists_of_unit? {u : Nat} (h : Tree.unit? cs = some (u, rest)) : ∃ ds, cs = ds ++ rest ∧ IsUnit ds u := by
  unfold Tree.unit? at h
  split at h
  · rename_i a b c d tail
    obtain ⟨v, hv, h⟩ := Option.bind_eq_some_iff.mp h
    cases h
    exact ⟨[a, b, c, d], rfl, rfl, hv⟩
  · cases h

theorem exists_of_lowHalf? {v : Nat} (h : Tree.lowHalf? cs = some (v, rest)) :
    ∃ ds, cs = '\\' :: 'u' :: (ds ++ rest) ∧ IsUnit ds v ∧ 0xdc00 ≤ v ∧ v < 0xe000 := by
  unfold Tree.lowHalf? at h
  split at h
  · rename_i behind
    cases hunit : Tree.unit? behind with
    | none =>
        rw [hunit] at h
        cases h
    | some found =>
        obtain ⟨u, tail⟩ := found
        obtain ⟨ds, rfl, hu⟩ := exists_of_unit? hunit
        rw [hunit] at h
        obtain ⟨hlow, h⟩ := Option.ite_none_right_eq_some.mp h
        cases h
        exact ⟨ds, rfl, hu, hlow⟩
  · cases h

theorem lowHalf?_eq_none (h : ¬ StartsLowHalf cs) : Tree.lowHalf? cs = none := by
  cases hlow : Tree.lowHalf? cs with
  | none => rfl
  | some found =>
      obtain ⟨v, rest⟩ := found
      obtain ⟨ds, rfl, hv, hrange⟩ := exists_of_lowHalf? hlow
      exact absurd ⟨ds, v, rest, rfl, hv, hrange⟩ h

theorem unitChar_half {u : Nat} (hhalf : 0xd800 ≤ u ∧ u < 0xe000) (hlone : u < 0xdc00 → ¬ StartsLowHalf rest) :
    Tree.unitChar u rest = (none, rest) := by
  rw [Tree.unitChar, if_neg (by omega)]
  split
  · rename_i hhigh
    rw [lowHalf?_eq_none (hlone hhigh)]
  · rfl

theorem unitChar_pair {u v : Nat} (hhigh : 0xd800 ≤ u ∧ u < 0xdc00) (hv : IsUnit ds v)
    (hlow : 0xdc00 ≤ v ∧ v < 0xe000) : Tree.unitChar u ('\\' :: 'u' :: (ds ++ rest)) =
      (some (Char.ofNat (0x10000 + 1024 * (u - 0xd800) + (v - 0xdc00))), rest) := by
  rw [Tree.unitChar, if_neg (by omega), if_pos hhigh.2, lowHalf?_unit hv hlow]

theorem TextChar.textChar?_eq {c : Option Char} (h : TextChar c cs ds) : Tree.textChar? cs = some (c, ds) := by
  cases h with
  | plain hc =>
      obtain ⟨hlow, -, hslash⟩ := hc
      rw [Tree.textChar?]
      · exact if_neg (not_or.mpr ⟨Nat.not_lt.mpr hlow, hslash⟩)
      · exact fun _ heq => absurd heq hslash
      · exact fun _ _ heq => absurd heq hslash
  | escape hc =>
      have hletters : ∀ p ∈ escapes, p.1 ≠ 'u' ∧ Tree.shortEscape? p.1 = some p.2 :=
        List.all_iff_forall_prop.mp (by decide)
      obtain ⟨hunit, hletter⟩ := hletters _ hc
      rw [Tree.textChar?, hletter]
      · rfl
      · exact hunit
  | unit hu hwhole =>
      rw [Tree.textChar?, hu.unit?_append]
      dsimp only [bind, Option.bind, pure]
      rw [Tree.unitChar, if_pos hwhole]
  | pair hu hhigh hv hlow =>
      rw [Tree.textChar?, hu.unit?_append]
      dsimp only [bind, Option.bind, pure]
      rw [unitChar_pair hhigh hv hlow]
  | half hu hhalf hlone =>
      rw [Tree.textChar?, hu.unit?_append]
      dsimp only [bind, Option.bind, pure]
      rw [unitChar_half hhalf hlone]

theorem TextChar.head?_ne {c : Option Char} (h : TextChar c cs ds) : cs.head? ≠ some '"' := by
  cases h with
  | plain hc => exact fun heq => hc.2.1 (Option.some.inj heq)
  | escape | unit | pair | half => exact fun heq => absurd (Option.some.inj heq) (by decide)

theorem TextChar.length_lt {c : Option Char} (h : TextChar c cs ds) : ds.length < cs.length := by
  cases h <;> simp <;> omega

theorem TextBody.length_lt (h : TextBody s cs rest) : rest.length < cs.length := by
  induction h with
  | close => exact Nat.lt_succ_self _
  | char hc _ ih => exact Nat.lt_trans ih hc.length_lt

/-- A text is read character by character. -/
theorem TextBody.textBody?_eq (h : TextBody s cs rest) {bound : Nat} (hbound : cs.length < bound)
    (acc : Option (List Char)) : Tree.textBody? bound acc cs =
      some (acc.bind fun a => s.map fun t => String.ofList (a.reverse ++ t), rest) := by
  induction h generalizing bound acc with
  | close =>
      obtain ⟨bound, rfl⟩ := Nat.exists_eq_succ_of_ne_zero (Nat.ne_zero_of_lt hbound)
      rw [Tree.textBody?]
      cases acc <;> simp
  | @char cs ds rest s c hc h ih =>
      obtain ⟨bound, rfl⟩ := Nat.exists_eq_succ_of_ne_zero (Nat.ne_zero_of_lt hbound)
      have hlength := hc.length_lt
      rw [Tree.textBody?, hc.textChar?_eq]
      · refine (ih (by omega) _).trans ?_
        cases acc with
        | none => rfl
        | some a =>
            cases c with
            | none => rfl
            | some c =>
                cases s with
                | none => rfl
                | some t =>
                    change some (some (String.ofList ((c :: a).reverse ++ t)), rest) = _
                    rw [List.reverse_cons, List.append_assoc]
                    rfl
      · rintro rest rfl
        exact hc.head?_ne rfl

theorem TextBody.textBody?_start (h : TextBody s cs rest) :
    Tree.textBody? (cs.length + 1) (some []) cs = some (s.map String.ofList, rest) := by
  rw [h.textBody?_eq (Nat.lt_succ_self _)]
  cases s <;> rfl

/-! ### Values -/

/-- What a stretch of a JSON text spells: a value, a value with blanks around it, the items of an array, one member of
an object, the members of an object. -/
inductive Part where
  | value (t : Tree)
  | padded (t : Tree)
  | items (ts : List Tree)
  | member (m : Option String × Tree)
  | members (ms : List (Option String × Tree))

/-- The characters begin with a spelling of a part, and the rest follows it. -/
inductive Spells : Part → List Char → List Char → Prop
  | null {rest : List Char} : Spells (.value .null) ('n' :: 'u' :: 'l' :: 'l' :: rest) rest
  | yes {rest : List Char} : Spells (.value (.bool true)) ('t' :: 'r' :: 'u' :: 'e' :: rest) rest
  | no {rest : List Char} : Spells (.value (.bool false)) ('f' :: 'a' :: 'l' :: 's' :: 'e' :: rest) rest
  | numeral {rest : List Char} (n : NumeralText) : Spells (.value (.numeral n.value)) (n.chars ++ rest) rest
  | text {cs rest : List Char} {s : Option (List Char)} (h : TextBody s cs rest) :
      Spells (.value (.text (s.map String.ofList))) ('"' :: cs) rest
  | emptyArray {cs rest : List Char} (h : Blanks cs (']' :: rest)) : Spells (.value (.array [])) ('[' :: cs) rest
  | array {cs rest : List Char} {ts : List Tree} (h : Spells (.items ts) cs (']' :: rest)) :
      Spells (.value (.array ts)) ('[' :: cs) rest
  | emptyObject {cs rest : List Char} (h : Blanks cs ('\x7d' :: rest)) :
      Spells (.value (.object [])) ('\x7b' :: cs) rest
  | object {cs rest : List Char} {ms : List (Option String × Tree)} (h : Spells (.members ms) cs ('\x7d' :: rest)) :
      Spells (.value (.object ms)) ('\x7b' :: cs) rest
  | padded {cs ds es rest : List Char} {t : Tree} (hbefore : Blanks cs ds) (h : Spells (.value t) ds es)
      (hafter : Blanks es rest) : Spells (.padded t) cs rest
  | lastItem {cs rest : List Char} {t : Tree} (h : Spells (.padded t) cs rest) : Spells (.items [t]) cs rest
  | item {cs ds rest : List Char} {t : Tree} {ts : List Tree} (h : Spells (.padded t) cs (',' :: ds))
      (hmore : Spells (.items ts) ds rest) : Spells (.items (t :: ts)) cs rest
  | member {cs ds es fs rest : List Char} {s : Option (List Char)} {t : Tree} (hbefore : Blanks cs ('"' :: ds))
      (hkey : TextBody s ds es) (hafter : Blanks es (':' :: fs)) (h : Spells (.padded t) fs rest) :
      Spells (.member (s.map String.ofList, t)) cs rest
  | lastMember {cs rest : List Char} {m : Option String × Tree} (h : Spells (.member m) cs rest) :
      Spells (.members [m]) cs rest
  | members {cs ds rest : List Char} {m : Option String × Tree} {ms : List (Option String × Tree)}
      (h : Spells (.member m) cs (',' :: ds)) (hmore : Spells (.members ms) ds rest) :
      Spells (.members (m :: ms)) cs rest

/-- A text that spells a tree. -/
def Tree.SpelledBy (t : Tree) (text : String) : Prop := Spells (.padded t) text.toList []

/-! ### Reading -/

theorem blanks_skipBlanks (cs : List Char) : Blanks cs (Tree.skipBlanks cs) :=
  ⟨cs.takeWhile Tree.isBlank, List.all_eq_true.mp List.all_takeWhile, List.takeWhile_append_dropWhile.symm⟩

theorem skipBlanks_idem (cs : List Char) : Tree.skipBlanks (Tree.skipBlanks cs) = Tree.skipBlanks cs :=
  (blanks_skipBlanks cs).skipBlanks_eq.symm

theorem value?_congr (h : Tree.skipBlanks cs = Tree.skipBlanks ds) (bound : Nat) :
    Tree.value? bound cs = Tree.value? bound ds := by
  cases bound with
  | zero => rw [Tree.value?, Tree.value?]
  | succ bound => rw [Tree.value?, Tree.value?, h]

theorem items?_skipBlanks (bound : Nat) (acc : List Tree) (cs : List Char) :
    Tree.items? bound acc (Tree.skipBlanks cs) = Tree.items? bound acc cs := by
  cases bound with
  | zero => rw [Tree.items?, Tree.items?]
  | succ bound => rw [Tree.items?, Tree.items?, value?_congr (skipBlanks_idem cs)]

theorem members?_skipBlanks (bound : Nat) (acc : List (Option String × Tree)) (cs : List Char) :
    Tree.members? bound acc (Tree.skipBlanks cs) = Tree.members? bound acc cs := by
  cases bound with
  | zero => rw [Tree.members?, Tree.members?]
  | succ bound => rw [Tree.members?, Tree.members?, skipBlanks_idem]

theorem value?_digit {d : Char} (hd : Digits.isDigit 10 d) (cs : List Char) (bound : Nat) :
    Tree.value? (bound + 1) (d :: cs) =
      (Tree.unsignedNumeral? false (d :: cs)).map fun (n, rest) => (.numeral n, rest) := by
  obtain ⟨k, hk, rfl⟩ := Decimal.exists_of_isDigit (Digits.isDigit_ten_iff.mp hd)
  match k, hk with
  | 0, _ | 1, _ | 2, _ | 3, _ | 4, _ | 5, _ | 6, _ | 7, _ | 8, _ | 9, _ => rfl

theorem NumeralText.exists_body (n : NumeralText) : ∃ d ds, n.body = d :: ds ∧ Digits.isDigit 10 d := by
  obtain ⟨d, ds, hds⟩ := List.exists_cons_of_ne_nil n.whole_ne_nil
  refine ⟨d, _, by rw [body, hds, List.cons_append], n.whole_digits d ?_⟩
  rw [hds]
  exact List.mem_cons_self ..

theorem NumeralText.exists_chars (n : NumeralText) :
    ∃ d ds, n.chars = d :: ds ∧ d ∈ '-' :: "0123456789".toList := by
  rw [chars]
  split
  · exact ⟨_, _, rfl, List.mem_cons_self ..⟩
  · obtain ⟨d, ds, hds, hd⟩ := n.exists_body
    refine ⟨d, ds, hds, List.mem_cons_of_mem _ ?_⟩
    obtain ⟨k, hk, rfl⟩ := Decimal.exists_of_isDigit (Digits.isDigit_ten_iff.mp hd)
    have hall : ∀ k < 10, Char.ofNat (48 + k) ∈ "0123456789".toList := by decide
    exact hall k hk

theorem value?_numeral (n : NumeralText) (h : Stops rest) (bound : Nat) :
    Tree.value? (bound + 1) (n.chars ++ rest) = some (.numeral n.value, rest) := by
  have hbody := unsignedNumeral?_body n h
  rw [NumeralText.chars]
  cases hsign : n.negative with
  | true =>
      rw [hsign] at hbody
      rw [if_pos rfl]
      exact congrArg (Option.map _) hbody
  | false =>
      obtain ⟨d, ds, hds, hd⟩ := n.exists_body
      rw [hsign, hds] at hbody
      rw [if_neg Bool.false_ne_true, hds, List.cons_append, value?_digit hd]
      exact congrArg (Option.map _) hbody

theorem value?_bracket (bound : Nat) (cs : List Char) : Tree.value? (bound + 1) ('[' :: cs) =
    match Tree.skipBlanks cs with
    | ']' :: rest => some (.array [], rest)
    | rest => Tree.items? bound [] rest := rfl

theorem value?_brace (bound : Nat) (cs : List Char) : Tree.value? (bound + 1) ('\x7b' :: cs) =
    match Tree.skipBlanks cs with
    | '\x7d' :: rest => some (.object [], rest)
    | rest => Tree.members? bound [] rest := rfl

/-- Every part but blanks takes characters. -/
theorem Spells.length_lt {part : Part} (h : Spells part cs rest) : rest.length < cs.length := by
  induction h with
  | null | yes | no =>
      simp only [List.length_cons]
      omega
  | numeral n =>
      obtain ⟨d, ds, hds, -⟩ := n.exists_chars
      rw [hds, List.length_append, List.length_cons]
      omega
  | text h => exact Nat.lt_succ_of_lt h.length_lt
  | emptyArray h | emptyObject h => exact Nat.lt_succ_of_lt h.length_le
  | array _ ih | object _ ih => exact Nat.lt_succ_of_lt (Nat.lt_of_succ_lt ih)
  | padded hbefore _ hafter ih =>
      have hbefore := hbefore.length_le
      have hafter := hafter.length_le
      omega
  | lastItem _ ih | lastMember _ ih => exact ih
  | item _ _ ih ihmore | members _ _ ih ihmore =>
      rw [List.length_cons] at ih
      omega
  | member hbefore hkey hafter _ ih =>
      have hbefore := hbefore.length_le
      have hkey := hkey.length_lt
      have hafter := hafter.length_le
      rw [List.length_cons] at hbefore hafter
      omega

theorem Spells.exists_head {part : Part} (h : Spells part cs rest) :
    ∃ c ds, Tree.skipBlanks cs = c :: ds ∧ c ≠ ']' ∧ c ≠ '\x7d' := by
  induction h with
  | null | yes | no | text | emptyArray | array | emptyObject | object =>
      exact ⟨_, _, rfl, by decide, by decide⟩
  | @numeral rest n =>
      obtain ⟨d, ds, hds, hd⟩ := n.exists_chars
      have hplain : ∀ d ∈ '-' :: "0123456789".toList, Tree.isBlank d = false ∧ d ≠ ']' ∧ d ≠ '\x7d' :=
        List.all_iff_forall_prop.mp (by decide)
      obtain ⟨hblank, hbracket, hbrace⟩ := hplain d hd
      refine ⟨d, ds ++ rest, ?_, hbracket, hbrace⟩
      rw [hds, List.cons_append]
      exact List.dropWhile_cons_of_neg (by rw [hblank]; decide)
  | padded hbefore _ _ ih =>
      rw [hbefore.skipBlanks_eq]
      exact ih
  | lastItem _ ih | lastMember _ ih | item _ _ ih | members _ _ ih => exact ih
  | member hbefore =>
      rw [hbefore.skipBlanks_eq]
      exact ⟨_, _, rfl, by decide, by decide⟩

theorem Spells.value?_array {ts : List Tree} (h : Spells (.items ts) cs rest) (bound : Nat) :
    Tree.value? (bound + 1) ('[' :: cs) = Tree.items? bound [] cs := by
  obtain ⟨c, ds, hhead, hc, -⟩ := h.exists_head
  rw [value?_bracket]
  split
  · rename_i hclose
    rw [hhead] at hclose
    exact absurd (List.cons.inj hclose).1 hc
  · exact items?_skipBlanks bound [] cs

theorem Spells.value?_object {ms : List (Option String × Tree)} (h : Spells (.members ms) cs rest) (bound : Nat) :
    Tree.value? (bound + 1) ('\x7b' :: cs) = Tree.members? bound [] cs := by
  obtain ⟨c, ds, hhead, -, hc⟩ := h.exists_head
  rw [value?_brace]
  split
  · rename_i hclose
    rw [hhead] at hclose
    exact absurd (List.cons.inj hclose).1 hc
  · exact members?_skipBlanks bound [] cs

theorem Blanks.stops (h : Blanks cs rest) (hstops : Stops rest) : Stops cs := by
  obtain ⟨blanks, hblanks, rfl⟩ := h
  cases blanks with
  | nil => exact hstops
  | cons b blanks =>
      intro c hc
      obtain rfl := Option.some.inj hc
      have hb := hblanks b (List.mem_cons_self ..)
      simp only [Tree.isBlank, Bool.or_eq_true, beq_iff_eq] at hb
      rcases hb with ((rfl | rfl) | rfl) | rfl <;> decide

theorem stops_of_mem {c : Char} (h : c ∈ [',', ']', '\x7d']) (rest : List Char) : Stops (c :: rest) := by
  intro d hd
  obtain rfl := Option.some.inj hd
  have hall : ∀ c ∈ [',', ']', '\x7d'], Digits.isDigit 10 c = false ∧ c ≠ '.' ∧ c ≠ 'e' ∧ c ≠ 'E' :=
    List.all_iff_forall_prop.mp (by decide)
  exact hall c h

/-- How the reader comes across a part. -/
def Part.Read : Part → List Char → List Char → Prop
  | value t, cs, rest => ∀ bound, 2 * cs.length ≤ bound + 1 → Tree.value? (bound + 1) cs = some (t, rest)
  | padded t, cs, rest => ∀ bound, 2 * cs.length ≤ bound → ∃ ds, Tree.value? bound cs = some (t, ds) ∧ Blanks ds rest
  | items ts, cs, rest => ∀ bound acc after, rest = ']' :: after → 2 * cs.length ≤ bound →
      Tree.items? (bound + 1) acc cs = some (.array (acc.reverse ++ ts), after)
  | member m, cs, rest => ∃ ds es fs, Tree.skipBlanks cs = '"' :: ds ∧
      Tree.textBody? (ds.length + 1) (some []) ds = some (m.1, es) ∧ Tree.skipBlanks es = ':' :: fs ∧
      ∀ bound, 2 * cs.length ≤ bound → ∃ gs, Tree.value? bound fs = some (m.2, gs) ∧ Blanks gs rest
  | members ms, cs, rest => ∀ bound acc after, rest = '\x7d' :: after → 2 * cs.length ≤ bound →
      Tree.members? (bound + 1) acc cs = some (.object (acc.reverse ++ ms), after)

theorem Spells.read {part : Part} (h : Spells part cs rest) (hstops : Stops rest) : part.Read cs rest := by
  -- The bound pays twice for each character: an item costs a step of its list and one of its own value.
  induction h with
  | null | yes | no => exact fun bound _ => rfl
  | numeral n => exact fun bound _ => value?_numeral n hstops bound
  | text h => exact fun bound _ => congrArg (Option.map _) h.textBody?_start
  | emptyArray h =>
      intro bound _
      rw [value?_bracket, h.skipBlanks_eq]
      rfl
  | array h ih =>
      intro bound hbound
      have hlength := h.length_lt
      rw [List.length_cons] at hbound
      obtain ⟨bound, rfl⟩ := Nat.exists_eq_succ_of_ne_zero (n := bound) (by omega)
      rw [h.value?_array]
      exact ih (stops_of_mem (by decide) _) bound [] _ rfl (by omega)
  | emptyObject h =>
      intro bound _
      rw [value?_brace, h.skipBlanks_eq]
      rfl
  | object h ih =>
      intro bound hbound
      have hlength := h.length_lt
      rw [List.length_cons] at hbound
      obtain ⟨bound, rfl⟩ := Nat.exists_eq_succ_of_ne_zero (n := bound) (by omega)
      rw [h.value?_object]
      exact ih (stops_of_mem (by decide) _) bound [] _ rfl (by omega)
  | padded hbefore h hafter ih =>
      intro bound hbound
      have hlength := h.length_lt
      have hblanks := hbefore.length_le
      obtain ⟨bound, rfl⟩ := Nat.exists_eq_succ_of_ne_zero (n := bound) (by omega)
      refine ⟨_, ?_, hafter⟩
      rw [value?_congr hbefore.skipBlanks_eq]
      exact ih (hafter.stops hstops) bound (by omega)
  | lastItem h ih =>
      rintro bound acc after rfl hbound
      obtain ⟨ds, hvalue, hblanks⟩ := ih hstops bound hbound
      rw [Tree.items?, hvalue]
      dsimp only [bind, Option.bind]
      rw [hblanks.skipBlanks_eq]
      exact congrArg (fun ts => some (Tree.array ts, after)) List.reverse_cons
  | @item cs ds rest t ts h hmore ih ihmore =>
      rintro bound acc after rfl hbound
      have hlength := h.length_lt
      rw [List.length_cons] at hlength
      obtain ⟨es, hvalue, hblanks⟩ := ih (stops_of_mem (by decide) _) bound hbound
      obtain ⟨bound, rfl⟩ := Nat.exists_eq_succ_of_ne_zero (n := bound) (by omega)
      rw [Tree.items?, hvalue]
      dsimp only [bind, Option.bind]
      rw [hblanks.skipBlanks_eq]
      refine (ihmore hstops bound (t :: acc) after rfl (by omega)).trans ?_
      rw [List.reverse_cons, List.append_assoc]
      rfl
  | member hbefore hkey hafter h ih =>
      have hlengthBefore := hbefore.length_le
      have hlengthKey := hkey.length_lt
      have hlengthAfter := hafter.length_le
      rw [List.length_cons] at hlengthBefore hlengthAfter
      exact ⟨_, _, _, hbefore.skipBlanks_eq, hkey.textBody?_start, hafter.skipBlanks_eq,
        fun bound hbound => ih hstops bound (by omega)⟩
  | lastMember h ih =>
      rintro bound acc after rfl hbound
      obtain ⟨ds, es, fs, hquote, hkey, hcolon, hvalue⟩ := ih hstops
      obtain ⟨gs, hvalue, hblanks⟩ := hvalue bound hbound
      rw [Tree.members?, hquote]
      simp only [hkey, hcolon, hvalue, hblanks.skipBlanks_eq, Option.bind_eq_bind, Option.bind_some]
      exact congrArg (fun ms => some (Tree.object ms, after)) List.reverse_cons
  | @members cs ds rest m ms h hmore ih ihmore =>
      rintro bound acc after rfl hbound
      have hlength := h.length_lt
      rw [List.length_cons] at hlength
      obtain ⟨es, fs, gs, hquote, hkey, hcolon, hvalue⟩ := ih (stops_of_mem (by decide) _)
      obtain ⟨hs, hvalue, hblanks⟩ := hvalue bound hbound
      obtain ⟨bound, rfl⟩ := Nat.exists_eq_succ_of_ne_zero (n := bound) (by omega)
      rw [Tree.members?, hquote]
      simp only [hkey, hcolon, hvalue, hblanks.skipBlanks_eq, Option.bind_eq_bind, Option.bind_some]
      refine (ihmore hstops bound (m :: acc) after rfl (by omega)).trans ?_
      rw [List.reverse_cons, List.append_assoc]
      rfl

/-- What a text spells is what it is read as. -/
theorem Tree.parse?_of_spelledBy {t : Tree} {text : String} (h : t.SpelledBy text) : Tree.parse? text = some t := by
  obtain ⟨ds, hvalue, hblanks⟩ := Spells.read h (fun c hc => nomatch hc) (2 * text.toList.length + 2) (by omega)
  rw [Tree.parse?, hvalue]
  dsimp only
  rw [hblanks.skipBlanks_eq]
  rfl

end StateHistory.Json
