/-! # Blanks

The white space of Unicode, and texts without the white space at their ends. -/

namespace StateHistory.Text

/-- The characters that Unicode counts as white space. -/
def isBlank (c : Char) : Bool :=
  let n := c.toNat
  (9 ≤ n && n ≤ 13) || n == 0x20 || n == 0x85 || n == 0xa0 || n == 0x1680
    || (0x2000 ≤ n && n ≤ 0x200a) || n == 0x2028 || n == 0x2029 || n == 0x202f || n == 0x205f
    || n == 0x3000

/-- A text without the characters of a class at its end. -/
def dropEndWhile (p : Char → Bool) (cs : List Char) : List Char := (cs.reverse.dropWhile p).reverse

/-- A text without the blanks at its ends. -/
def trim (cs : List Char) : List Char := dropEndWhile isBlank (cs.dropWhile isBlank)

/-- The pieces of a text between separators, one more than there are separators. -/
def split (separator : Char) : List Char → List (List Char)
  | [] => [[]]
  | c :: cs =>
    if c = separator then [] :: split separator cs
    else match split separator cs with
      | [] => [[c]]
      | piece :: pieces => (c :: piece) :: pieces

/-- Pieces with a separator between them. -/
def join (separator : Char) : List (List Char) → List Char
  | [] => []
  | [piece] => piece
  | piece :: pieces => piece ++ separator :: join separator pieces

theorem join_split (separator : Char) (cs : List Char) : join separator (split separator cs) = cs := by
  induction cs with
  | nil => rfl
  | cons c cs ih =>
    have ne : split separator cs ≠ [] := by
      cases cs with
      | nil => simp [split]
      | cons d ds =>
        simp only [split]
        split
        · simp
        · split <;> simp
    by_cases h : c = separator
    · subst h
      obtain ⟨p, ps, hp⟩ := List.exists_cons_of_ne_nil ne
      rw [split, if_pos rfl, hp, join]
      · rw [hp] at ih; simp [ih]
      · simp
    · obtain ⟨p, ps, hp⟩ := List.exists_cons_of_ne_nil ne
      rw [split, if_neg h, hp]
      rw [hp] at ih
      cases ps with
      | nil => simpa [join] using ih
      | cons q qs => simpa [join] using ih

end StateHistory.Text
