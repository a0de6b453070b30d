import PackageRecipe.Sdl.Document

/-!
# Reading token by token

A second way to read a document. `Document.ofText` groups all tokens before it
reads any of them; here the tokens are taken one after the other, and a block is
read by the same function as the text around it. Nothing is taken for granted:
each access to a token, each cut of the text and each step down of a counter is
checked, a loop has to take a token in each round, and a `Fault` says which of
the checks failed.
-/

namespace PackageRecipe.Sdl.Descent

open PackageRecipe.Text

/-- What could go wrong. -/
inductive Fault where
  /-- There is no token with this number. -/
  | noToken (i : Nat)
  /-- A place that is not in the text, or that begins or ends inside a character. -/
  | unevenCut (s : Span)
  /-- A counter steps below zero. -/
  | belowZero
  /-- A loop goes on without having taken a token. -/
  | idle
deriving DecidableEq, Repr

/-- How far a text has been read. -/
structure State where
  /-- The number of tokens that have been taken. -/
  place : Nat
  /-- The number of blocks that are open. -/
  depth : Nat
  /-- The problems met so far. -/
  problems : List Problem

namespace State

/-- Takes tokens. -/
def take (s : State) (count : Nat) : State := { s with place := s.place + count }

/-- Takes an opening brace. -/
def enter (s : State) : State := { s.take 1 with depth := s.depth + 1 }

/-- Reports problems. -/
def report (s : State) (ps : List Problem) : State := { s with problems := s.problems ++ ps }

end State

/-! ## Checks -/

/-- A counter, one step down. -/
def down (n : Nat) : Except Fault Nat :=
  if n = 0 then .error .belowZero else .ok (n - 1)

/-- What a text holds at a place. -/
def cut (text : List Char) (s : Span) : Except Fault (List Char) :=
  if s.start ≤ s.stop ∧ width (takeBytes s.start text) = s.start ∧
      width (takeBytes s.stop text) = s.stop then
    .ok (takeBytes (s.stop - s.start) (dropBytes s.start text))
  else .error (.unevenCut s)

/-- The text of a delimited token behind its first byte, and in front of its last
one if it is closed. -/
def body (terminated : Bool) (text : List Char) : Except Fault (List Char) := do
  let stop ← if terminated then down (width text) else .ok (width text)
  cut text ⟨1, max stop 1⟩

/-- What a round of a loop decides. -/
inductive Round (α β : Type) where
  | again (a : α)
  | done (b : β)

/-- Repeats a round until it is the last. -/
def rounds {α β : Type} (size : Nat) (round : α → State → Except Fault (Round α β × State))
    (a : α) (s : State) : Except Fault (β × State) :=
  match round a s with
  | .error fault => .error fault
  | .ok (.done b, s') => .ok (b, s')
  | .ok (.again a', s') =>
    if s.place < s'.place ∧ s'.place ≤ size then rounds size round a' s' else .error .idle
termination_by size - s.place

section Text

variable (text : List Char) (ts : List Token)

/-- The text of a token. -/
def word (t : Token) : Except Fault String :=
  (cut text t.span).map String.ofList

/-- The kind and the decoded text of a literal token of a kind. -/
def literal? (kind : TokenKind) (chars : List Char) : Except Fault (Option (ValueKind × String)) :=
  match kind with
  | .string raw terminated => do
    let inside ← body terminated chars
    .ok (some (.string, String.ofList (if raw then inside else Escape.decode inside)))
  | .binary terminated => do
    let inside ← body terminated chars
    .ok (some (.binary, String.ofList (trim inside)))
  | .number => .ok (some (.number, String.ofList chars))
  | .date => .ok (some (.date, String.ofList chars))
  | .duration => .ok (some (.duration, String.ofList chars))
  | .identifier => .ok (Token.keyword? (String.ofList chars))
  | _ => .ok none

/-- The value of a literal token. -/
def value? (t : Token) : Except Fault (Option Value) := do
  let chars ← cut text t.span
  let literal ← literal? t.kind chars
  .ok (literal.map fun (kind, decoded) => ⟨kind, decoded, t.span⟩)

/-! ## Tokens around a place -/

/-- The token with a number. -/
def tokenAt (i : Nat) : Except Fault Token :=
  match ts[i]? with
  | some t => .ok t
  | none => .error (.noToken i)

/-- The token that was taken last. -/
def last (s : State) : Except Fault Token := do
  tokenAt ts (← down s.place)

/-- Whether a token ahead has a kind. -/
def kindAhead (s : State) (count : Nat) (kind : TokenKind) : Bool :=
  ts[s.place + count]?.any (·.kind == kind)

/-- Whether a token ahead is a name. -/
def nameAhead (s : State) (count : Nat) : Except Fault Bool :=
  match ts[s.place + count]? with
  | some t =>
    if t.kind == .identifier then do
      let name ← word text t
      .ok (Token.keyword? name).isNone
    else .ok false
  | none => .ok false

/-- Whether a colon and a name stand behind the next token. -/
def spaceAhead (s : State) : Except Fault Bool :=
  if kindAhead ts s 1 .colon then nameAhead text ts s 2 else .ok false

/-! ## Tokens that are left out -/

/-- Takes a token of a block at a level of braces. -/
def blockRound (level : Nat) (s : State) : Except Fault (Round Nat (Option Nat) × State) :=
  match ts[s.place]? with
  | none => .ok (.done none, s)
  | some t =>
    match t.kind with
    | .leftBrace => .ok (.again (level + 1), s.take 1)
    | .rightBrace => do
      let outer ← down level
      if outer = 0 then .ok (.done (some t.stop), s.take 1) else .ok (.again outer, s.take 1)
    | _ => .ok (.again level, s.take 1)

/-- Takes a whole block, and answers where it ends if it does. -/
def skipBlock (s : State) : Except Fault (Option Nat × State) :=
  match ts[s.place]? with
  | none => .ok (none, s)
  | some opening => do
    let (stop, s) ← rounds ts.length (blockRound ts) 1 (s.take 1)
    match stop with
    | some _ => .ok (stop, s)
    | none => .ok (none, s.report [⟨opening.span, .missingClosingBrace⟩])

/-- Takes a token of a statement. -/
def statementRound (_ : Unit) (s : State) : Except Fault (Round Unit Unit × State) :=
  match ts[s.place]? with
  | none => .ok (.done (), s)
  | some t =>
    match t.kind with
    | .newline | .semicolon | .rightBrace => .ok (.done (), s)
    | .leftBrace => do
      let (_, s) ← skipBlock ts s
      .ok (.done (), s)
    | _ => .ok (.again (), s.take 1)

/-- Takes a statement with its block. -/
def skipStatement (s : State) : Except Fault State := do
  let (_, s) ← rounds ts.length (statementRound ts) () s
  pure s

/-! ## Tags -/

/-- Reads the name of a tag that begins with a token. -/
def head (first : Token) (s : State) : Except Fault (Option Head × State) := do
  if ← nameAhead text ts s 0 then
    if ← spaceAhead text ts s then
      let second ← tokenAt ts (s.place + 2)
      let space ← word text first
      let name ← word text second
      let stop := (← last ts (s.take 3)).stop
      .ok (some { space := some space, name := name, nameSpan := ⟨first.start, second.stop⟩,
                  stop := stop }, s.take 3)
    else
      let name ← word text first
      let stop := (← last ts (s.take 1)).stop
      .ok (some { name := name, nameSpan := first.span, stop := stop }, s.take 1)
  else
    match ← value? text first with
    | some v =>
      let stop := (← last ts (s.take 1)).stop
      .ok (some { name := anonymousName, nameSpan := ⟨first.start, first.start⟩, values := [v],
                  stop := stop }, s.take 1)
    | none =>
      let s ← skipStatement ts (s.report [⟨first.span, .expectedTagName⟩])
      .ok (none, s)

/-- The value of the next token of a statement. -/
def valueAhead (s : State) : Except Fault (Option Value) :=
  match ts[s.place]? with
  | some t => if t.endsStatement then .ok none else value? text t
  | none => .ok none

/-- The name of an attribute, which is written with a namespace or alone. -/
def attributeName (space : Option String) (chars : List Char) : String :=
  String.ofList (if space.isSome then (chars.dropWhile (· != ':')).drop 1 else chars)

/-- Reads an attribute behind its equals sign. -/
def attributeValue (space : Option String) (nameSpan : Span) (s : State) :
    Except Fault (Option Attribute × State) := do
  let name := attributeName space (← cut text nameSpan)
  match ← valueAhead text ts s with
  | some v => .ok (some ⟨space, name, nameSpan, v⟩, s.take 1)
  | none =>
    let equals ← last ts s
    .ok (none, s.report [⟨⟨nameSpan.start, equals.stop⟩, .attributeWithoutValue name⟩])

/-- Reads an attribute behind its equals sign, and adds it to a tag. -/
def addAttribute (h : Head) (space : Option String) (nameSpan : Span) (s : State) :
    Except Fault (Head × State) := do
  let (a, s) ← attributeValue text ts space nameSpan s
  let stop := (← last ts s).stop
  .ok ({ h with attributes := h.attributes ++ a.toList, stop := stop }, s)

/-- Adds the token that was taken last to a tag, if it is a value. -/
def addWord (h : Head) (t : Token) (s : State) : Except Fault (Head × State) := do
  match ← value? text t with
  | some v =>
    .ok ({ h with values := h.values ++ [v], stop := t.stop },
      s.report (if h.attributes.isEmpty then [] else [⟨t.span, .valueAfterAttribute⟩]))
  | none =>
    match t.kind with
    | .identifier => do
      let name ← word text t
      .ok ({ h with stop := t.stop }, s.report [⟨t.span, .unexpectedIdentifier name⟩])
    | .unknown => .ok ({ h with stop := t.stop }, s)
    | _ => do
      let quoted ← word text t
      .ok ({ h with stop := t.stop }, s.report [⟨t.span, .unexpectedToken quoted⟩])

/-- Reads a value or an attribute that begins with a token. -/
def item (h : Head) (t : Token) (s : State) : Except Fault (Head × State) := do
  if ← nameAhead text ts s 0 then
    if kindAhead ts s 1 .equals then addAttribute text ts h none t.span (s.take 2)
    else if (← spaceAhead text ts s) && kindAhead ts s 3 .equals then
      let name ← tokenAt ts (s.place + 2)
      let space ← word text t
      addAttribute text ts h (some space) ⟨t.start, name.stop⟩ (s.take 4)
    else addWord text h t (s.take 1)
  else addWord text h t (s.take 1)

/-- Reads a value or an attribute, unless the words of the statement end. -/
def itemRound (h : Head) (s : State) : Except Fault (Round Head Head × State) :=
  match ts[s.place]? with
  | none => .ok (.done h, s)
  | some t =>
    if t.endsStatement then .ok (.done h, s)
    else do
      let (h, s) ← item text ts h t s
      .ok (.again h, s)

/-- Takes the closing brace of a block, if there is one, and answers where the
block ends. -/
def blockEnd (opening : Token) (s : State) : Nat × State :=
  match ts[s.place]?.filter (·.kind == .rightBrace) with
  | some closing => (closing.stop, s.take 1)
  | none => (((ts[s.place - 1]?).map fun t => max opening.stop t.stop).getD opening.stop, s)

mutual

/-- Reads tags up to the end of the text, or up to the closing brace if a block
is open. -/
def children (opening : Option Token) (s : State) : Except Fault (List Tag × State) :=
  match ts[s.place]? with
  | none => .ok ([], s.report (opening.toList.map fun o => ⟨o.span, .missingClosingBrace⟩))
  | some t =>
    if t.kind == .rightBrace && opening.isSome then .ok ([], s)
    else do
      let (tag?, s') ← statement t s
      if _further : s.place < s'.place ∧ s'.place ≤ ts.length then
        let (tags, s') ← children opening s'
        .ok (tag?.toList ++ tags, s')
      else .error .idle
termination_by (ts.length - s.place, 2)

/-- Reads a statement that begins with a token. -/
def statement (t : Token) (s : State) : Except Fault (Option Tag × State) :=
  match t.kind with
  | .newline | .semicolon => .ok (none, s.take 1)
  | .rightBrace => .ok (none, (s.take 1).report [⟨t.span, .strayClosingBrace⟩])
  | _ => tag s
termination_by (ts.length - s.place, 1)

/-- Reads a tag with its block. -/
def tag (s : State) : Except Fault (Option Tag × State) :=
  match ts[s.place]? with
  | none => .ok (none, s)
  | some first => do
    match ← head text ts first s with
    | (none, s') => .ok (none, s')
    | (some h, s') =>
      let (h, s') ← rounds ts.length (itemRound text ts) h s'
      if _further : s.place < s'.place ∧ s'.place ≤ ts.length then
        let (t, s') ← block first.start h s'
        .ok (some t, s')
      else .error .idle
termination_by (ts.length - s.place, 0)

/-- Reads the block of a tag that begins at `start`, if there is one. -/
def block (start : Nat) (h : Head) (s : State) : Except Fault (Tag × State) :=
  if kindAhead ts s 0 .leftBrace then do
    let opening ← tokenAt ts s.place
    if s.depth < maxDepth then
      if _further : s.place < s.enter.place ∧ s.enter.place ≤ ts.length then
        let (tags, s') ← children (some opening) s.enter
        let depth ← down s'.depth
        let (stop, s') := blockEnd ts opening { s' with depth := depth }
        .ok (h.toTag start stop tags, s')
      else .error .idle
    else
      let (stop, s') ← skipBlock ts (s.report [⟨opening.span, .nestingTooDeep⟩])
      .ok (h.toTag start (stop.getD opening.stop) [], s')
  else .ok (h.toTag start h.stop [], s)
termination_by (ts.length - s.place, 0)

end

end Text

/-- Reads a document from a text, and answers how far the text was read. -/
def ofText (text : List Char) : Except Fault (Document × State) := do
  let lexing := Lexing.ofText text
  let (tags, s) ← children text lexing.tokens none ⟨0, 0, lexing.problems⟩
  .ok (⟨Tag.root tags, Problem.sort s.problems⟩, s)

end PackageRecipe.Sdl.Descent
