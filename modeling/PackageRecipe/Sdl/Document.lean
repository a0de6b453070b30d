import PackageRecipe.Sdl.Statement
import PackageRecipe.Sdl.Tag

/-!
# Documents

A document is a tree of tags and the problems found in its text. Reading never
fails: `Document.ofText` turns tokens into statements and statements into tags,
keeps what it understands of each statement and reports the rest.
-/

namespace PackageRecipe.Sdl

open PackageRecipe.Text

/-- The name of a tag that begins with a value. -/
def anonymousName : String := "content"

/-- The number of blocks that may be open at once. The content of deeper blocks
is skipped. -/
def maxDepth : Nat := 128

/-- A document. -/
structure Document where
  root : Tag
  problems : List Problem

/-- A tag read so far, without its block. -/
structure Head where
  space : Option String := none
  name : String
  nameSpan : Span
  values : List Value := []
  attributes : List Attribute := []
  /-- The byte offset behind the last token read. -/
  stop : Nat

namespace Head

/-- Reads the name of a tag, or the value that a tag without a name begins
with, and leaves the other tokens of the statement. -/
def ofWords? : List Token → Option (Head × List Token)
  | [] => none
  | first :: rest =>
    if first.isName then
      match rest with
      | colon :: second :: rest' =>
        if colon.kind == .colon && second.isName then
          some ({ space := some first.word, name := second.word,
                  nameSpan := ⟨first.start, second.stop⟩, stop := second.stop }, rest')
        else some ({ name := first.word, nameSpan := first.span, stop := first.stop }, rest)
      | _ => some ({ name := first.word, nameSpan := first.span, stop := first.stop }, rest)
    else
      first.value?.map fun v =>
        ({ name := anonymousName, nameSpan := ⟨first.start, first.start⟩, values := [v],
           stop := first.stop }, rest)

/-- The name of an attribute with a namespace: all that the text holds between
the first colon behind the namespace and the end of the name. -/
def spacedName (colon name : Token) : String :=
  let text := colon.gap ++ colon.text ++ name.gap ++ name.text
  String.ofList ((text.dropWhile (· != ':')).drop 1)

/-- The next part of a statement behind the name of its tag. -/
inductive Item where
  /-- An attribute name with its equals sign, and the value behind them. -/
  | attribute (space : Option String) (name : String) (nameSpan : Span) (equals : Token)
      (value : Option (Token × Value))
  /-- Any other token. -/
  | word (t : Token)

/-- The literal at the head of the tokens, and what follows it. -/
def takeValue : List Token → Option (Token × Value) × List Token
  | [] => (none, [])
  | t :: rest =>
    match t.value? with
    | some v => (some (t, v), rest)
    | none => (none, t :: rest)

theorem length_takeValue_le (ts : List Token) : (takeValue ts).2.length ≤ ts.length := by
  unfold takeValue
  split
  · simp
  · split <;> simp

/-- Cuts the first item off the tokens `t :: rest`. -/
def takeItem (t : Token) (rest : List Token) : Item × List Token :=
  match rest with
  | a :: rest₁ =>
    if t.isName && a.kind == .equals then
      let (value, rest') := takeValue rest₁
      (.attribute none t.word t.span a value, rest')
    else
      match rest₁ with
      | b :: c :: rest₃ =>
        if t.isName && a.kind == .colon && b.isName && c.kind == .equals then
          let (value, rest') := takeValue rest₃
          (.attribute (some t.word) (spacedName a b) ⟨t.start, b.stop⟩ c value, rest')
        else (.word t, rest)
      | _ => (.word t, rest)
  | [] => (.word t, rest)

theorem length_takeItem_le (t : Token) (rest : List Token) :
    (takeItem t rest).2.length ≤ rest.length := by
  unfold takeItem
  split
  · rename_i a rest₁
    have h₁ := length_takeValue_le rest₁
    split
    · simp only [List.length_cons]
      omega
    · split
      · rename_i b c rest₃
        have h₃ := length_takeValue_le rest₃
        split
        · simp only [List.length_cons]
          omega
        · simp
      · simp
  · simp

/-- The items of a statement behind the name of its tag. -/
def items : List Token → List Item
  | [] => []
  | t :: rest =>
    (takeItem t rest).1 :: items (takeItem t rest).2
termination_by ts => ts.length
decreasing_by
  have := length_takeItem_le t rest
  simp only [List.length_cons]
  omega

/-- Adds an item to a tag, with the problem that it raises. -/
def addItem (h : Head) : Item → Head × List Problem
  | .attribute space name nameSpan _ (some (t, v)) =>
    ({ h with attributes := h.attributes ++ [⟨space, name, nameSpan, v⟩], stop := t.stop }, [])
  | .attribute _ name nameSpan equals none =>
    ({ h with stop := equals.stop },
      [⟨⟨nameSpan.start, equals.stop⟩, .attributeWithoutValue name⟩])
  | .word t =>
    match t.value? with
    | some v =>
      ({ h with values := h.values ++ [v], stop := t.stop },
        if h.attributes.isEmpty then [] else [⟨t.span, .valueAfterAttribute⟩])
    | none =>
      ({ h with stop := t.stop },
        match t.kind with
        | .identifier => [⟨t.span, .unexpectedIdentifier t.word⟩]
        | .unknown => []
        | _ => [⟨t.span, .unexpectedToken t.word⟩])

/-- Adds items to a tag in order, collecting problems. -/
def addItems (h : Head) : List Item → Head × List Problem
  | [] => (h, [])
  | i :: is =>
    let (h', ps) := h.addItem i
    let (h'', ps') := h'.addItems is
    (h'', ps ++ ps')

/-- The tag and the problems of the tokens of a statement, without its block. -/
def read? (words : List Token) : Option (Head × List Problem) :=
  (ofWords? words).map fun (h, rest) => h.addItems (items rest)

/-- The finished tag that begins at `start` and ends at `stop`. -/
def toTag (h : Head) (start stop : Nat) (children : List Tag) : Tag :=
  { space := h.space, name := h.name, nameSpan := h.nameSpan, span := some ⟨start, stop⟩,
    values := h.values, attributes := h.attributes, children := children }

end Head

/-- The problem of a block that is not closed. -/
def unclosed (opening : Token) (closing : Option Token) : List Problem :=
  match closing with
  | some _ => []
  | none => [⟨opening.span, .missingClosingBrace⟩]

/-- The tags of statements at a level with `depth` blocks open around it, and
the problems met on the way. `textStop` is the byte offset behind the last
token of the whole text, where blocks that are not closed end. -/
def tagsOf (textStop depth : Nat) : List Statement → List Tag × List Problem
  | [] => ([], [])
  | .separator _ :: rest => tagsOf textStop depth rest
  | .stray brace :: rest =>
    let (tags, ps) := tagsOf textStop depth rest
    (tags, ⟨brace.span, .strayClosingBrace⟩ :: ps)
  | .line words :: rest =>
    let (tags, ps) := tagsOf textStop depth rest
    match words, Head.read? words with
    | first :: _, some (h, ps₀) => (h.toTag first.start h.stop [] :: tags, ps₀ ++ ps)
    | first :: _, none => (tags, ⟨first.span, .expectedTagName⟩ :: ps)
    | [], _ => (tags, ps)
  | .block words opening body closing :: rest =>
    let (tags, ps) := tagsOf textStop depth rest
    match words, Head.read? words with
    | first :: _, some (h, ps₀) =>
      if depth < maxDepth then
        let (children, ps₁) := tagsOf textStop (depth + 1) body
        let stop := (closing.map Token.stop).getD (max opening.stop textStop)
        (h.toTag first.start stop children :: tags, ps₀ ++ ps₁ ++ unclosed opening closing ++ ps)
      else
        let stop := (closing.map Token.stop).getD opening.stop
        (h.toTag first.start stop [] :: tags,
          ps₀ ++ ⟨opening.span, .nestingTooDeep⟩ :: unclosed opening closing ++ ps)
    | first :: _, none =>
      (tags, ⟨first.span, .expectedTagName⟩ :: unclosed opening closing ++ ps)
    | [], _ => (tags, ⟨opening.span, .expectedTagName⟩ :: unclosed opening closing ++ ps)

/-- The root of a document, which holds its tags. -/
def Tag.root (children : List Tag) : Tag :=
  { space := none, name := "", nameSpan := ⟨0, 0⟩, span := none, values := [], attributes := [],
    children := children }

/-- Reads a document from a text. -/
def Document.ofText (text : List Char) : Document :=
  let lexing := Lexing.ofText text
  let textStop := (lexing.tokens.getLast?.map Token.stop).getD 0
  let (tags, problems) := tagsOf textStop 0 (Statement.ofTokens lexing.tokens)
  ⟨Tag.root tags, Problem.sort (lexing.problems ++ problems)⟩

/-- Reads a document from a string. -/
def Document.ofString (text : String) : Document :=
  Document.ofText text.toList

end PackageRecipe.Sdl
