import StateHistory.Endpoint.Punycode
import StateHistory.Text.Blank

/-! # Domain names

The normal form of a host name: letters in lower case, compatible forms replaced, and every label that
is not ASCII written by its ASCII form after the mark `xn--`.

The letters known here are those of the Latin, Greek, Cyrillic and Armenian blocks; a letter of
another script stands for itself, and an accent after a letter is not joined with it. A name is
refused if it holds a character that no host may hold, a label that starts with a combining mark, or a
marked label that is the ASCII form of nothing. -/

namespace StateHistory.Domain

/-- A block of letters that have a lower case: first and last number, how far apart the upper-case
letters are, and the distance to the lower case. -/
structure CaseBlock where
  first : Nat
  last : Nat
  stride : Nat
  distance : Nat

/-- The blocks of letters with a lower case beyond ASCII. -/
def caseBlocks : List CaseBlock :=
  [⟨0xc0, 0xd6, 1, 32⟩, ⟨0xd8, 0xde, 1, 32⟩, ⟨0x100, 0x12f, 2, 1⟩, ⟨0x134, 0x137, 2, 1⟩,
   ⟨0x139, 0x13e, 2, 1⟩, ⟨0x141, 0x148, 2, 1⟩, ⟨0x14a, 0x177, 2, 1⟩, ⟨0x179, 0x17e, 2, 1⟩,
   ⟨0x1cd, 0x1dc, 2, 1⟩, ⟨0x1de, 0x1ef, 2, 1⟩, ⟨0x1f8, 0x21f, 2, 1⟩, ⟨0x222, 0x233, 2, 1⟩,
   ⟨0x386, 0x386, 1, 38⟩, ⟨0x388, 0x38a, 1, 37⟩, ⟨0x38c, 0x38c, 1, 64⟩, ⟨0x38e, 0x38f, 1, 63⟩,
   ⟨0x391, 0x3a1, 1, 32⟩, ⟨0x3a3, 0x3ab, 1, 32⟩, ⟨0x3d8, 0x3ef, 2, 1⟩, ⟨0x400, 0x40f, 1, 80⟩,
   ⟨0x410, 0x42f, 1, 32⟩, ⟨0x460, 0x481, 2, 1⟩, ⟨0x48a, 0x4bf, 2, 1⟩, ⟨0x4c1, 0x4ce, 2, 1⟩,
   ⟨0x4d0, 0x52f, 2, 1⟩, ⟨0x531, 0x556, 1, 48⟩, ⟨0x1e00, 0x1e95, 2, 1⟩, ⟨0x1ea0, 0x1eff, 2, 1⟩]

/-- Characters that stand for others. -/
def replacements : List (Nat × String) :=
  [(0xaa, "a"), (0xb2, "2"), (0xb3, "3"), (0xb5, "μ"), (0xb9, "1"), (0xba, "o"), (0x132, "ij"),
   (0x133, "ij"), (0x13f, "l·"), (0x140, "l·"), (0x149, "ʼn"), (0x178, "ÿ"), (0x17f, "s"),
   (0x1e9e, "ß"), (0x3002, "."), (0xff61, "."), (0xfb00, "ff"), (0xfb01, "fi"), (0xfb02, "fl"),
   (0xfb03, "ffi"), (0xfb04, "ffl"), (0xfb05, "st"), (0xfb06, "st"), (0x2126, "ω"), (0x212a, "k"),
   (0x212b, "å")]

/-- The numbers of characters that are left out. -/
def ignored : List (Nat × Nat) :=
  [(0xad, 0xad), (0x34f, 0x34f), (0x180b, 0x180d), (0x200b, 0x200b), (0x2060, 0x2060),
   (0xfe00, 0xfe0f), (0xfeff, 0xfeff), (0xe0100, 0xe01ef)]

/-- The numbers of characters beyond ASCII that no name may hold. -/
def refused : List (Nat × Nat) :=
  [(0x80, 0xa0), (0xa8, 0xa8), (0xaf, 0xaf), (0xb4, 0xb4), (0xb8, 0xb8), (0x37e, 0x37e),
   (0x1680, 0x1680), (0x2000, 0x200a), (0x200c, 0x200f), (0x2028, 0x202f), (0x205f, 0x205f),
   (0x2061, 0x206f), (0x3000, 0x3000), (0xd800, 0xf8ff), (0xfdd0, 0xfdef), (0xfff0, 0xffff),
   (0xe0000, 0xe00ff), (0xe01f0, 0x10ffff)]

/-- Whether a number is in one of some ranges. -/
def within (ranges : List (Nat × Nat)) (n : Nat) : Bool :=
  ranges.any fun (first, last) => first ≤ n && n ≤ last

/-- The ASCII characters that no name may hold. -/
def isForbidden (c : Char) : Bool :=
  c.toNat ≤ 32 || c.toNat == 127 || "%#/:<>?@[\\]^|".toList.contains c

/-- The lower case of a letter beyond ASCII. -/
def lower (n : Nat) : Nat :=
  match caseBlocks.find? fun b => b.first ≤ n && n ≤ b.last && (n - b.first) % b.stride == 0 with
  | some b => n + b.distance
  | none => n

/-- What a character stands for in a name, if a name may hold it. Covered are ASCII with its wide forms, and beyond
it the characters of `ignored`, `refused`, `replacements` and `caseBlocks`; any other character stands for itself, also
where it has a compatible or a lower-case form that these tables do not hold. -/
def mapChar? (c : Char) : Option (List Char) :=
  let n := c.toNat
  if n < 128 then if isForbidden c then none else some [c.toLower]
  else if 0xff01 ≤ n ∧ n ≤ 0xff5e then
    let wide := Char.ofNat (n - 0xfee0)
    if isForbidden wide then none else some [wide.toLower]
  else if within ignored n then some []
  else if within refused n then none
  else match replacements.lookup n with
    | some s => some s.toList
    | none => some [Char.ofNat (lower n)]

/-- Whether a character combines with the one before it. -/
def isMark (c : Char) : Bool := within [(0x300, 0x36f), (0x1ab0, 0x1aff), (0x20d0, 0x20ff)] c.toNat

/-- The mark of a label in its ASCII form. -/
def mark : List Char := ['x', 'n', '-', '-']

/-- Whether a marked label is the ASCII form of a label in normal form. -/
def isEncoded (rest : List Char) : Bool :=
  match Punycode.decode? rest with
  | some cs => cs.any (128 ≤ ·.toNat) && Punycode.encode cs == rest
      && cs.all (fun c => mapChar? c == some [c]) && !(cs.head?.any isMark)
  | none => false

/-- The ASCII form of a label whose characters are in normal form. -/
def label? (cs : List Char) : Option (List Char) :=
  if cs.head?.any isMark then none
  else if cs.all (·.toNat < 128) then
    if mark.isPrefixOf cs && !isEncoded (cs.drop 4) then none else some cs
  else some (mark ++ Punycode.encode cs)

/-- The normal form of a name whose characters `mapChar?` covers. Letters and accents stay as they are written: a
letter that is followed by a combining accent is not composed with it, and no letter is taken apart. -/
def normal? (cs : List Char) : Option (List Char) := do
  let mapped ← cs.mapM mapChar?
  let labels ← (Text.split '.' mapped.flatten).mapM label?
  return Text.join '.' labels

end StateHistory.Domain
