import StateHistory.Text.Digits

/-! # TOML texts

Texts in double quotes know escapes, texts in single quotes do not. Either kind may run over lines when
it is set in three quotes: the first line break is dropped, and a backslash before a line break drops
the blanks and line breaks that follow. No other control characters than tabs may stand in a text. -/

namespace StateHistory.Toml

/-- Whether a character may stand in a text. -/
def isTextChar (c : Char) : Bool := c == '\t' || (32 ≤ c.toNat && c.toNat != 127)

/-- The character of an escape of one letter. -/
def shortEscape? : Char → Option Char
  | '"' => some '"'
  | '\\' => some '\\'
  | 'b' => some '\x08'
  | 'f' => some '\x0c'
  | 'n' => some '\n'
  | 'r' => some '\r'
  | 't' => some '\t'
  | _ => none

/-- The character whose number is written by hexadecimal digits at the front, and the rest. -/
def numbered? (width : Nat) (cs : List Char) : Option (Char × List Char) := do
  let digits := cs.take width
  let n ← Digits.toNat? 16 digits
  if digits.length = width then
    if h : n.isValidChar then return (Char.ofNatAux n h, cs.drop width) else none
  else none

/-- What follows blanks and line breaks, which have to begin with a line break after blanks. -/
def foldLines? (cs : List Char) : Option (List Char) :=
  match cs.dropWhile fun c => c == ' ' || c == '\t' with
  | '\n' :: rest => some (rest.dropWhile fun c => c == ' ' || c == '\t' || c == '\n')
  | _ => none

/-- What an escape stands for, and what follows it. -/
def escape? (multiline : Bool) : List Char → Option (List Char × List Char)
  | 'u' :: cs => (numbered? 4 cs).map fun (c, rest) => ([c], rest)
  | 'U' :: cs => (numbered? 8 cs).map fun (c, rest) => ([c], rest)
  | c :: cs =>
    match shortEscape? c with
    | some e => some ([e], cs)
    | none =>
      if multiline && (c == ' ' || c == '\t' || c == '\n') then
        (foldLines? (c :: cs)).map fun rest => ([], rest)
      else none
  | [] => none

/-- The text in single quotes or double quotes whose opening quote has been read, and what follows the
closing one. -/
def lineText? (quote : Char) : (bound : Nat) → (acc : List Char) → List Char →
    Option (String × List Char)
  | 0, _, _ => none
  | _ + 1, _, [] => none
  | bound + 1, acc, c :: cs =>
    if c = quote then some (String.ofList acc.reverse, cs)
    else if c = '\\' ∧ quote = '"' then do
      let (e, rest) ← escape? false cs
      lineText? quote bound (e ++ acc) rest
    else if isTextChar c then lineText? quote bound (c :: acc) cs
    else none

/-- How many quotes stand at the front, up to five. -/
def quoteRun (quote : Char) (cs : List Char) : Nat := ((cs.take 5).takeWhile (· == quote)).length

/-- The text in three quotes whose opening quotes and first line break have been read, and what follows
the closing ones. Up to two more quotes belong to the text. -/
def linesText? (quote : Char) : (bound : Nat) → (acc : List Char) → List Char →
    Option (String × List Char)
  | 0, _, _ => none
  | _ + 1, _, [] => none
  | bound + 1, acc, c :: cs =>
    let run := quoteRun quote (c :: cs)
    if 3 ≤ run then
      some (String.ofList (List.replicate (run - 3) quote ++ acc).reverse, (c :: cs).drop run)
    else if c = '\\' ∧ quote = '"' then do
      let (e, rest) ← escape? true cs
      linesText? quote bound (e ++ acc) rest
    else if c = '\n' ∨ isTextChar c then linesText? quote bound (c :: acc) cs
    else none

/-- The text at the front, whether it is set in three quotes, and the rest. -/
def quotation? (quote : Char) (cs : List Char) : Option (String × Bool × List Char) :=
  match cs with
  | a :: b :: c :: rest =>
    if a = quote ∧ b = quote ∧ c = quote then
      let rest := if rest.head? = some '\n' then rest.drop 1 else rest
      (linesText? quote (rest.length + 1) [] rest).map fun (s, rest) => (s, true, rest)
    else if a = quote then
      (lineText? quote (cs.length + 1) [] (b :: c :: rest)).map fun (s, rest) => (s, false, rest)
    else none
  | a :: rest =>
    if a = quote then
      (lineText? quote (cs.length + 1) [] rest).map fun (s, rest) => (s, false, rest)
    else none
  | [] => none

end StateHistory.Toml
