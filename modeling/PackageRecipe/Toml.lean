import PackageRecipe.Toml.Scalar
import PackageRecipe.Toml.Table

/-!
# TOML

`Toml.read?` reads a document: lines that give values to names, and headers of
tables.
-/

namespace PackageRecipe.Toml

open PackageRecipe.Text

/-! ## Blanks -/

/-- Blanks within a line. -/
def isSpace (c : Char) : Bool :=
  c == ' ' || c == '\t'

/-- The text behind the blanks at its head. -/
def skipSpace (s : List Char) : List Char :=
  s.dropWhile isSpace

/-- A control character that must not stand in a document. -/
def isControl (c : Char) : Bool :=
  (c < ' ' && c != '\t') || c == '\x7f'

/-- The text behind a line end. -/
def newline? : List Char → Option (List Char)
  | '\n' :: r => some r
  | '\r' :: '\n' :: r => some r
  | _ => none

/-- The text behind a comment, if there is one. -/
def skipComment (s : List Char) : List Char :=
  match s with
  | '#' :: r => r.dropWhile fun c => !isControl c
  | _ => s

/-- The text behind blanks, comments and line ends. -/
def skipLines : (fuel : Nat) → List Char → List Char
  | 0, s => s
  | fuel + 1, s =>
    let r := skipComment (skipSpace s)
    match newline? r with
    | some r => skipLines fuel r
    | none => r

/-- The text behind blanks, comments and line ends. -/
def skipBlank (s : List Char) : List Char :=
  skipLines s.length s

/-! ## Strings -/

/-- The character that a simple escape stands for. -/
def escape? : Char → Option Char
  | 'b' => some '\x08'
  | 't' => some '\t'
  | 'n' => some '\n'
  | 'f' => some '\x0c'
  | 'r' => some '\r'
  | '"' => some '"'
  | '\\' => some '\\'
  | _ => none

/-- The character of a code point in the given number of digits, and the text
behind them. -/
def codePoint? (count : Nat) (s : List Char) : Option (Char × List Char) :=
  let cs := s.take count
  let n := Scalar.number 16 cs
  if cs.length = count ∧ cs.all (Scalar.isDigitOf 16) ∧ n.isValidChar then
    some (Char.ofNat n, s.drop count)
  else none

/-- The character that an escape stands for, and the text behind it. -/
def escaped? : List Char → Option (Char × List Char)
  | 'u' :: r => codePoint? 4 r
  | 'U' :: r => codePoint? 8 r
  | c :: r => (escape? c).map (·, r)
  | [] => none

/-- Reads a string in one line behind its opening quote. Escapes stand only in
strings with double quotes. -/
def lineString? (quote : Char) : (fuel : Nat) → List Char → Option (List Char × List Char)
  | 0, _ => none
  | _ + 1, [] => none
  | fuel + 1, c :: r =>
    if c = quote then some ([], r)
    else if isControl c then none
    else if c = '\\' ∧ quote = '"' then do
      let (d, r) ← escaped? r
      let (cs, r) ← lineString? quote fuel r
      pure (d :: cs, r)
    else do
      let (cs, r) ← lineString? quote fuel r
      pure (c :: cs, r)

/-- The text behind a backslash that ends a line, and the blanks and line ends
after it. -/
def joinedLine? (s : List Char) : Option (List Char) :=
  (newline? (skipSpace s)).map fun r => r.dropWhile fun c => isSpace c || c == '\n' || c == '\r'

/-- Reads a string of several lines behind its opening quotes. Up to two quotes may
stand in front of the closing ones. -/
def linesString? (quote : Char) : (fuel : Nat) → List Char → Option (List Char × List Char)
  | 0, _ => none
  | _ + 1, [] => none
  | fuel + 1, c :: r =>
    let quotes := ((c :: r).takeWhile (· == quote)).length
    if 3 ≤ quotes then
      let inside := min (quotes - 3) 2
      some (List.replicate inside quote, (c :: r).drop (inside + 3))
    else if c = '\\' ∧ quote = '"' then
      match joinedLine? r with
      | some r => linesString? quote fuel r
      | none => do
        let (d, r) ← escaped? r
        let (cs, r) ← linesString? quote fuel r
        pure (d :: cs, r)
    else
      match newline? (c :: r) with
      | some r => do
        let (cs, r) ← linesString? quote fuel r
        pure ('\n' :: cs, r)
      | none =>
        if isControl c then none
        else do
          let (cs, r) ← linesString? quote fuel r
          pure (c :: cs, r)

/-- Reads a string of several lines behind its opening quotes. A line end right
behind them does not count. -/
def blockString? (quote : Char) (s : List Char) : Option (List Char × List Char) :=
  linesString? quote (s.length + 1) ((newline? s).getD s)

/-! ## Names -/

/-- A character of a name without quotes. -/
def isNameChar (c : Char) : Bool :=
  Scalar.isDigitOf 10 c || ('a' ≤ c && c ≤ 'z') || ('A' ≤ c && c ≤ 'Z') || c == '_' || c == '-'

/-- Reads a name. -/
def name? (s : List Char) : Option (String × List Char) :=
  match s with
  | '"' :: r => (lineString? '"' (r.length + 1) r).map fun (cs, r) => (String.ofList cs, r)
  | '\'' :: r => (lineString? '\'' (r.length + 1) r).map fun (cs, r) => (String.ofList cs, r)
  | _ =>
    let cs := s.takeWhile isNameChar
    if cs.isEmpty then none else some (String.ofList cs, s.dropWhile isNameChar)

/-- Reads names with dots between them. -/
def names? : (fuel : Nat) → List Char → Option (List String × List Char)
  | 0, _ => none
  | fuel + 1, s => do
    let (name, r) ← name? (skipSpace s)
    match skipSpace r with
    | '.' :: r =>
      let (names, r) ← names? fuel r
      pure (name :: names, r)
    | r => pure ([name], r)

/-! ## Values -/

/-- Reads a scalar that is not a string. -/
def bare? (s : List Char) : Option (Json × List Char) := do
  let n ← Scalar.bare.longest s
  let j ← Scalar.value? (s.take n)
  pure (j, s.drop n)

mutual

/-- Reads a value. -/
def value? : (fuel : Nat) → List Char → Option (Json × List Char)
  | 0, _ => none
  | fuel + 1, s =>
    match s with
    | '"' :: '"' :: '"' :: r => (blockString? '"' r).map fun (cs, r) => (.string (String.ofList cs), r)
    | '\'' :: '\'' :: '\'' :: r =>
      (blockString? '\'' r).map fun (cs, r) => (.string (String.ofList cs), r)
    | '"' :: r =>
      (lineString? '"' (r.length + 1) r).map fun (cs, r) => (.string (String.ofList cs), r)
    | '\'' :: r =>
      (lineString? '\'' (r.length + 1) r).map fun (cs, r) => (.string (String.ofList cs), r)
    | '[' :: r => (items? fuel r).map fun (items, r) => (.array items, r)
    | '{' :: r =>
      match skipSpace r with
      | '}' :: r => some (.object [], r)
      | r => (inlineTable? fuel [] r).map fun (t, r) => (.object (tableMembers t), r)
    | _ => bare? s

/-- Reads the items of an array up to and with its closing bracket. -/
def items? : (fuel : Nat) → List Char → Option (List Json × List Char)
  | 0, _ => none
  | fuel + 1, s =>
    match skipBlank s with
    | ']' :: r => some ([], r)
    | r => do
      let (item, r) ← value? fuel r
      match skipBlank r with
      | ']' :: r => some ([item], r)
      | ',' :: r =>
        let (items, r) ← items? fuel r
        some (item :: items, r)
      | _ => none

/-- Reads the entries of a table in a line up to and with its closing brace, where
`t` holds those before. -/
def inlineTable? : (fuel : Nat) → Table → List Char → Option (Table × List Char)
  | 0, _, _ => none
  | fuel + 1, t, s => do
    let (names, r) ← names? (fuel + 1) s
    match r with
    | '=' :: r => do
      let (j, r) ← value? fuel (skipSpace r)
      let t ← t.put? names j
      match skipSpace r with
      | '}' :: r => some (t, r)
      | ',' :: r => inlineTable? fuel t r
      | _ => none
    | _ => none

end

/-! ## Documents -/

/-- What has been read of a document. -/
structure State where
  root : Table := []
  /-- Where the table of the last header is. -/
  current : List String := []

/-- Reads a header or a value. -/
def expression? (fuel : Nat) (st : State) (s : List Char) : Option (State × List Char) :=
  match s with
  | '[' :: '[' :: r => do
    let (names, r) ← names? fuel r
    match r with
    | ']' :: ']' :: r => pure (⟨← st.root.addElement? names, names⟩, r)
    | _ => none
  | '[' :: r => do
    let (names, r) ← names? fuel r
    match r with
    | ']' :: r => pure (⟨← st.root.addHeader? names, names⟩, r)
    | _ => none
  | _ => do
    let (names, r) ← names? fuel s
    match r with
    | '=' :: r =>
      let (j, r) ← value? fuel (skipSpace r)
      let root ← Table.descend? false (Table.put? names j) st.current st.root
      pure ({ st with root }, r)
    | _ => none

/-- Reads the lines of a document. -/
def lines? : (fuel : Nat) → State → List Char → Option State
  | 0, _, _ => none
  | fuel + 1, st, s =>
    match skipBlank s with
    | [] => some st
    | c :: r => do
      let (st, rest) ← expression? (fuel + 1) st (c :: r)
      match skipComment (skipSpace rest) with
      | [] => some st
      | rest => lines? fuel st (← newline? rest)

/-- The value of a document. -/
def read? (text : String) : Option Json :=
  let s := text.toList
  (lines? (s.length + 1) {} s).map fun st => .object (tableMembers st.root)

end PackageRecipe.Toml
