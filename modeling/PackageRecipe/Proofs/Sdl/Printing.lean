import PackageRecipe.Proofs.Sdl.Grammar
import PackageRecipe.Proofs.Sdl.Spacing
import PackageRecipe.Proofs.Sdl.Spelling

/-!
# Writing documents

A forest of tags can be written as a text, and reading the text gives the forest
back.

## Main Definitions

* `Written.Name`, `Written.Literal` — names and values that can be written
* `Written.Tag` — a tag that can be written
* `Written.print` — the text of a forest
* `Written.tags` — the tags that the text stands for

## Design Notes

What a name or a literal must satisfy is a part of its type.  The text is given by the
printer alone; `spellings` says which tokens it consists of, `legible_spellings` that
the scanner finds them, and `read_spellings` that they are read as the tags.  The last
two are proved by recursion over the forest, as the printer is defined.
-/

namespace PackageRecipe.Sdl.Written

open PackageRecipe.Text

/-! ## What can be written -/

/-- A name: an identifier of the scanner that is no keyword. -/
structure Name where
  text : List Char
  identifier : Piece.split text = [⟨.token .identifier, text⟩]
  noKeyword : Token.keyword? (String.ofList text) = none

/-- A value: a string, a decimal integer, a boolean or null. -/
inductive Literal where
  | string (text : List Char)
  | integer (negative : Bool) (digits : List Char) (nonempty : digits ≠ [])
      (decimal : ∀ c ∈ digits, c.isDigit)
  | boolean (value : Bool)
  | null

/-- An attribute. -/
structure Assignment where
  space : Option Name
  name : Name
  value : Literal

/-- A tag with its values, attributes and children. -/
inductive Tag where
  | node (space : Option Name) (name : Name) (values : List Literal)
      (attributes : List Assignment) (children : List Tag)

mutual

/-- The number of levels of a tag. -/
def height : Tag → Nat
  | .node _ _ _ _ children => heightAll children + 1

def heightAll : List Tag → Nat
  | [] => 0
  | t :: ts => max (height t) (heightAll ts)

end

/-! ### The printer -/

/-- A name behind its namespace. -/
def qualified (space : Option Name) (name : Name) : List Char :=
  match space with
  | none => name.text
  | some space => space.text ++ ':' :: name.text

/-- The text of a value. -/
def Literal.text : Literal → List Char
  | string text => '"' :: (Escape.encode text ++ ['"'])
  | integer negative digits _ _ => Spelling.integerText negative digits
  | boolean true => ['t', 'r', 'u', 'e']
  | boolean false => ['f', 'a', 'l', 's', 'e']
  | null => ['n', 'u', 'l', 'l']

/-- The text of an attribute. -/
def Assignment.text (a : Assignment) : List Char :=
  qualified a.space a.name ++ '=' :: a.value.text

mutual

/-- The text of a tag, with `pad` blanks in front of each opening brace. -/
def printTag (pad : Nat) : Tag → List Char
  | .node space name values attributes children =>
    qualified space name ++ values.flatMap (fun v => ' ' :: v.text) ++
      attributes.flatMap (fun a => ' ' :: a.text) ++
      (if children.isEmpty then []
        else List.replicate pad ' ' ++ '{' :: '\n' :: (print pad children ++ ['}'])) ++ ['\n']

/-- The text of a forest. -/
def print (pad : Nat) : List Tag → List Char
  | [] => []
  | t :: ts => printTag pad t ++ print pad ts

end

/-! ### The tags that are written -/

/-- A name as a string. -/
def Name.word (n : Name) : String := String.ofList n.text

/-- The kind and the text that a value is read with. -/
def Literal.value (l : Literal) : Value :=
  match l with
  | string text => ⟨.string, String.ofList text, ⟨0, 0⟩⟩
  | integer negative digits _ _ =>
    ⟨.number, String.ofList (Spelling.integerText negative digits), ⟨0, 0⟩⟩
  | boolean value => ⟨.boolean, if value then "true" else "false", ⟨0, 0⟩⟩
  | null => ⟨.null, "null", ⟨0, 0⟩⟩

/-- The attribute that is read. -/
def Assignment.attribute (a : Assignment) : Attribute :=
  ⟨a.space.map Name.word, a.name.word, ⟨0, 0⟩, a.value.value⟩

mutual

/-- The tag that is read, without places. -/
def tag : Tag → Sdl.Tag
  | .node space name values attributes children =>
    ⟨space.map Name.word, name.word, ⟨0, 0⟩, none, values.map Literal.value,
      attributes.map Assignment.attribute, tags children⟩

/-- The tags that are read, without places. -/
def tags : List Tag → List Sdl.Tag
  | [] => []
  | t :: ts => tag t :: tags ts

end

/-! ## The tokens of the text -/

def Name.spelling (gap : List Char) (n : Name) : Spelling := ⟨.identifier, n.text, gap⟩

/-- The tokens of a name behind its namespace. -/
def nameSpellings (gap : List Char) (space : Option Name) (name : Name) : List Spelling :=
  match space with
  | none => [name.spelling gap]
  | some space => [space.spelling gap, ⟨.colon, [':'], []⟩, name.spelling []]

/-- The kind of token that a value is written as. -/
def Literal.kind : Literal → TokenKind
  | string _ => .string false true
  | integer .. => .number
  | boolean _ | null => .identifier

def Literal.spelling (gap : List Char) (l : Literal) : Spelling := ⟨l.kind, l.text, gap⟩

/-- The tokens of an attribute. -/
def Assignment.spellings (a : Assignment) : List Spelling :=
  nameSpellings [' '] a.space a.name ++ [⟨.equals, ['='], []⟩, a.value.spelling []]

/-- The tokens of a tag in front of its block. -/
def headSpellings (space : Option Name) (name : Name) (values : List Literal)
    (attributes : List Assignment) : List Spelling :=
  nameSpellings [] space name ++
    (values.map (Literal.spelling [' ']) ++ attributes.flatMap Assignment.spellings)

mutual

def spellingsTag (pad : Nat) : Tag → List Spelling
  | .node space name values attributes children =>
    headSpellings space name values attributes ++
      ((if children.isEmpty then []
        else ⟨.leftBrace, ['{'], List.replicate pad ' '⟩ :: ⟨.newline, ['\n'], []⟩ ::
          (spellings pad children ++ [⟨.rightBrace, ['}'], []⟩])) ++ [⟨.newline, ['\n'], []⟩])

/-- The tokens of a forest. -/
def spellings (pad : Nat) : List Tag → List Spelling
  | [] => []
  | t :: ts => spellingsTag pad t ++ spellings pad ts

end

theorem chars_nameSpellings (gap : List Char) (space : Option Name) (name : Name) :
    (nameSpellings gap space name).flatMap Spelling.chars = gap ++ qualified space name := by
  cases space <;> simp [nameSpellings, qualified, Name.spelling, Spelling.chars]

theorem chars_assignment (a : Assignment) :
    a.spellings.flatMap Spelling.chars = ' ' :: a.text := by
  rw [Assignment.spellings, List.flatMap_append, chars_nameSpellings]
  simp [Assignment.text, Literal.spelling, Spelling.chars]

theorem chars_headSpellings (space : Option Name) (name : Name) (values : List Literal)
    (attributes : List Assignment) :
    (headSpellings space name values attributes).flatMap Spelling.chars =
      qualified space name ++ values.flatMap (fun v => ' ' :: v.text) ++
        attributes.flatMap (fun a => ' ' :: a.text) := by
  simp [headSpellings, List.flatMap_append, chars_nameSpellings, List.flatMap_map,
    List.flatMap_assoc, chars_assignment, Literal.spelling, Spelling.chars]

/-- The printer writes the tokens. -/
theorem chars_spellings (pad : Nat) : ∀ ts : List Tag,
    (spellings pad ts).flatMap Spelling.chars = print pad ts
  | [] => rfl
  | .node space name values attributes children :: ts => by
      have below := chars_spellings pad children
      have rest := chars_spellings pad ts
      rw [spellings, List.flatMap_append, rest, print, spellingsTag, List.flatMap_append,
        chars_headSpellings, printTag]
      cases children <;> simp [Spelling.chars, ← below]

/-! ## The scanner finds the tokens -/

/-- A text that continues neither a name nor a numeral. -/
def Stops (next : List Char) : Prop :=
  ∀ c ∈ next.head?, c ∈ [' ', '\n', '{']

theorem Stops.append {a b : List Char} (left : Stops a) (right : Stops b) : Stops (a ++ b) := by
  cases a with
  | nil => exact right
  | cons c a => exact left

theorem stops_cons {c : Char} (stop : c ∈ [' ', '\n', '{']) (next : List Char) :
    Stops (c :: next) := by
  simpa [Stops] using stop

theorem Stops.isIdentifierChar {next : List Char} (stops : Stops next) :
    ∀ a ∈ next.head?, Piece.isIdentifierChar a = false := by
  intro a member
  have stop := stops a member
  revert a
  simp only [List.mem_cons, List.not_mem_nil, or_false]
  rintro a - (rfl | rfl | rfl) <;> decide

theorem Stops.isNumeralChar {next : List Char} (stops : Stops next) :
    ∀ a ∈ next.head?, Numeral.isNumeralChar a = false := by
  intro a member
  have stop := stops a member
  revert a
  simp only [List.mem_cons, List.not_mem_nil, or_false]
  rintro a - (rfl | rfl | rfl) <;> decide

/-- A name is read in front of everything that does not continue it. -/
theorem Name.readBefore (n : Name) (gap : List Char) {next : List Char}
    (ends : ∀ a ∈ next.head?, Piece.isIdentifierChar a = false) :
    (n.spelling gap).ReadBefore next := by
  obtain ⟨c, r, m, begun, text⟩ := Piece.begins_of_mem_split (s := n.text)
    (p := ⟨.token .identifier, n.text⟩) (by simp [n.identifier])
  obtain ⟨first, rest, same, start, continued⟩ :=
    Token.Lexed.identifier (t := ⟨.identifier, n.text, [], 0⟩) ⟨c, r, m, begun, text⟩ rfl
  have read := Spelling.readBefore_identifier start continued gap ends
  rwa [show first :: rest = n.text from same.symm] at read

/-- A value is read in front of a blank, a line feed or a brace. -/
theorem Literal.readBefore (l : Literal) (gap : List Char) {next : List Char}
    (stops : Stops next) : (l.spelling gap).ReadBefore next := by
  cases l with
  | string text => exact Spelling.readBefore_string text gap next
  | integer negative digits nonempty decimal =>
      exact Spelling.readBefore_integer negative decimal nonempty gap stops.isNumeralChar
  | boolean value =>
      cases value <;>
        exact Spelling.readBefore_identifier (by decide) (List.all_eq_true.1 (by decide)) gap
          stops.isIdentifierChar
  | null =>
      exact Spelling.readBefore_identifier (by decide) (List.all_eq_true.1 (by decide)) gap
          stops.isIdentifierChar

theorem noGap : ∀ c ∈ ([] : List Char), Piece.isLineBlank c := by simp

theorem oneBlank : ∀ c ∈ [' '], Piece.isLineBlank c := List.all_eq_true.1 (by decide)

theorem legible_nameSpellings {gap : List Char} (blank : ∀ c ∈ gap, Piece.isLineBlank c)
    (space : Option Name) (name : Name) {next : List Char}
    (ends : ∀ a ∈ next.head?, Piece.isIdentifierChar a = false) :
    Legible next (nameSpellings gap space name) := by
  cases space with
  | none => exact ⟨blank, name.readBefore gap ends, trivial⟩
  | some space =>
      refine ⟨blank, space.readBefore gap ?_, noGap, ?_, noGap, ?_, trivial⟩
      · simp [Spelling.chars]
        decide
      · exact Spelling.readBefore_mark rfl _ _
      · exact name.readBefore [] ends

theorem legible_assignment (a : Assignment) {next : List Char} (stops : Stops next) :
    Legible next a.spellings := by
  rw [Assignment.spellings, legible_append]
  constructor
  · apply legible_nameSpellings oneBlank
    simp [Spelling.chars]
    decide
  · exact ⟨noGap, Spelling.readBefore_mark rfl _ _, noGap, a.value.readBefore [] stops, trivial⟩

theorem stops_assignments (as : List Assignment) :
    Stops ((as.flatMap Assignment.spellings).flatMap Spelling.chars) := by
  cases as with
  | nil => simp [Stops]
  | cons a as =>
      rw [List.flatMap_cons, List.flatMap_append, chars_assignment]
      exact stops_cons (by simp) _

theorem legible_assignments (as : List Assignment) {next : List Char} (stops : Stops next) :
    Legible next (as.flatMap Assignment.spellings) := by
  induction as with
  | nil => trivial
  | cons a as ih =>
      rw [List.flatMap_cons, legible_append]
      exact ⟨legible_assignment a ((stops_assignments as).append stops), ih⟩

theorem stops_values (vs : List Literal) :
    Stops ((vs.map (Literal.spelling [' '])).flatMap Spelling.chars) := by
  cases vs with
  | nil => simp [Stops]
  | cons v vs => exact stops_cons (by simp) _

theorem legible_values (vs : List Literal) {next : List Char} (stops : Stops next) :
    Legible next (vs.map (Literal.spelling [' '])) := by
  induction vs with
  | nil => trivial
  | cons v vs ih =>
      exact ⟨oneBlank, v.readBefore [' '] ((stops_values vs).append stops), ih⟩

theorem legible_headSpellings (space : Option Name) (name : Name) (values : List Literal)
    (attributes : List Assignment) {next : List Char} (stops : Stops next) :
    Legible next (headSpellings space name values attributes) := by
  have behind := (stops_assignments attributes).append stops
  rw [headSpellings, legible_append, legible_append]
  refine ⟨?_, legible_values values behind, legible_assignments attributes stops⟩
  apply legible_nameSpellings noGap
  rw [List.flatMap_append, List.append_assoc]
  exact ((stops_values values).append behind).isIdentifierChar

/-- The braces of a block are read around everything that is read in front of a closing
brace. -/
theorem legible_block (pad : Nat) {body : List Spelling} {next : List Char}
    (below : Legible ('}' :: next) body) :
    Legible next (⟨.leftBrace, ['{'], List.replicate pad ' '⟩ :: ⟨.newline, ['\n'], []⟩ ::
      (body ++ [⟨.rightBrace, ['}'], []⟩])) := by
  refine ⟨?_, Spelling.readBefore_mark rfl _ _, noGap, Spelling.readBefore_mark rfl _ _,
    legible_append.2 ⟨below, noGap, Spelling.readBefore_mark rfl _ _, trivial⟩⟩
  intro c member
  rw [List.eq_of_mem_replicate member]
  rfl

theorem stops_block (pad : Nat) (body : List Spelling) (next : List Char) :
    Stops ((⟨.leftBrace, ['{'], List.replicate pad ' '⟩ :: body).flatMap Spelling.chars ++
      next) := by
  have blanks : Stops (List.replicate pad ' ') := by
    cases pad with
    | zero => simp [Stops]
    | succ pad => exact stops_cons (by simp) _
  simpa [Spelling.chars] using blanks.append (stops_cons (by simp) _)

/-- **The scanner finds the tokens that were written.** -/
theorem legible_spellings (pad : Nat) : ∀ (ts : List Tag) (next : List Char),
    Legible next (spellings pad ts)
  | [], _ => trivial
  | .node space name values attributes children :: ts, next => by
      have rest := legible_spellings pad ts next
      have below := legible_spellings pad children
      have feed (next : List Char) : Legible next [⟨.newline, ['\n'], []⟩] :=
        ⟨noGap, Spelling.readBefore_mark rfl _ _, trivial⟩
      rw [spellings, spellingsTag, legible_append, legible_append]
      refine ⟨⟨?_, ?_⟩, rest⟩
      · apply legible_headSpellings
        cases children with
        | nil => exact stops_cons (by simp) _
        | cons child children =>
            rw [List.flatMap_append, List.append_assoc]
            exact stops_block pad _ _
      · cases children with
        | nil => exact feed _
        | cons child children =>
            rw [legible_append]
            exact ⟨legible_block pad (below _), feed _⟩

/-! ## The tokens are read as tags -/

section Tokens

variable {t : Token} {gap : List Char}

theorem Name.isName (n : Name) (written : t.spelling = n.spelling gap) : t.isName := by
  obtain ⟨kind, text, -⟩ := Spelling.mk.inj written
  simp [Token.isName, Token.word, kind, text, n.noKeyword]

theorem Name.word_eq (n : Name) (written : t.spelling = n.spelling gap) : t.word = n.word := by
  obtain ⟨-, text, -⟩ := Spelling.mk.inj written
  rw [Token.word, text, Name.word]

theorem Literal.value_eq (l : Literal) (written : t.spelling = l.spelling gap) :
    ∃ v, t.value? = some v ∧ v.bare = l.value := by
  obtain ⟨kind, text, -⟩ := Spelling.mk.inj written
  have literal : t.literal? = some (l.value.kind, l.value.text) := by
    cases l with
    | string s =>
        simp only [Literal.kind, Literal.text] at kind text
        simp [Token.literal?, kind, text, Token.body, Literal.value, Escape.decode_encode]
    | integer negative digits nonempty decimal =>
        simp only [Literal.kind, Literal.text] at kind text
        simp [Token.literal?, kind, text, Token.word, Literal.value]
    | boolean value =>
        simp only [Literal.kind] at kind
        cases value <;> simp only [Literal.text] at text <;>
          simp [Token.literal?, kind, text, Token.word, Literal.value] <;> rfl
    | null =>
        simp only [Literal.kind, Literal.text] at kind text
        simp [Token.literal?, kind, text, Token.word, Literal.value]
        rfl
  refine ⟨⟨l.value.kind, l.value.text, t.span⟩, by rw [Token.value?, literal]; rfl, ?_⟩
  cases l <;> rfl

end Tokens

/-- The name of an attribute is the text of its token, where nothing stands around the
colon. -/
theorem spacedName_eq {c n : Token} (name : Name) (colon : c.spelling = ⟨.colon, [':'], []⟩)
    (written : n.spelling = name.spelling []) : Head.spacedName c n = name.word := by
  obtain ⟨-, colonText, colonGap⟩ := Spelling.mk.inj colon
  obtain ⟨-, nameText, nameGap⟩ := Spelling.mk.inj written
  simp [Head.spacedName, colonText, colonGap, nameText, nameGap, Name.word]

/-- What is read from the tokens behind the name of a tag. -/
structure ReadItems (ts : List Token) (values : List Value) (attributes : List Attribute) :
    Prop where
  grammatical : Items ts
  values_eq : ((Head.items ts).filterMap Head.Item.value?).map Value.bare = values
  attributes_eq : ((Head.items ts).filterMap Head.Item.attribute?).map Attribute.bare = attributes
  noProblem : ∀ h : Head, h.attributes = [] ∨ values = [] → (h.addItems (Head.items ts)).2 = []

theorem readItems_nil : ReadItems [] [] [] := by
  refine ⟨.nil, ?_, ?_, fun h _ => ?_⟩ <;> simp [Head.items_nil, Head.addItems]

theorem ReadItems.attribute {ts us : List Token} {space : Option String} {name : String}
    {nameSpan : Span} {e v : Token} {value : Value} {attributes : List Attribute}
    (rest : ReadItems ts [] attributes) (grammatical : Items us)
    (items : Head.items us =
      .attribute space name nameSpan e (some (v, value)) :: Head.items ts) :
    ReadItems us [] (⟨space, name, ⟨0, 0⟩, value.bare⟩ :: attributes) where
  grammatical := grammatical
  values_eq := by
    rw [items, List.filterMap_cons]
    exact rest.values_eq
  attributes_eq := by
    rw [items, List.filterMap_cons]
    simp only [Head.Item.attribute?, List.map_cons, rest.attributes_eq, Attribute.bare]
  noProblem := by
    intro h _
    rw [items, Head.addItems]
    simp only [Head.addItem, rest.noProblem _ (.inr rfl), List.append_nil]

theorem ReadItems.literal {ts : List Token} {v : Token} {value : Value} {values : List Value}
    {attributes : List Attribute} (rest : ReadItems ts values attributes)
    (literal : v.value? = some value) :
    ReadItems (v :: ts) (value.bare :: values) attributes where
  grammatical := .literal (Token.isLiteral_iff.2 ⟨_, literal⟩) rest.grammatical
  values_eq := by
    rw [Head.items_literal (Token.isLiteral_iff.2 ⟨_, literal⟩), List.filterMap_cons]
    simp only [Head.Item.value?, literal, List.map_cons, rest.values_eq]
  attributes_eq := by
    rw [Head.items_literal (Token.isLiteral_iff.2 ⟨_, literal⟩), List.filterMap_cons]
    exact rest.attributes_eq
  noProblem := by
    -- A value behind an attribute is worth a warning; here none stands in front of it.
    intro h first
    have none : h.attributes = [] := first.resolve_right (by simp)
    rw [Head.items_literal (Token.isLiteral_iff.2 ⟨_, literal⟩), Head.addItems]
    simp only [Head.addItem, literal, none, List.isEmpty_nil, if_true, List.nil_append]
    exact rest.noProblem _ (.inl rfl)

theorem read_assignments (as : List Assignment) {ts : List Token}
    (written : ts.map Token.spelling = as.flatMap Assignment.spellings) :
    ReadItems ts [] (as.map Assignment.attribute) := by
  induction as generalizing ts with
  | nil =>
      obtain rfl : ts = [] := by simpa using written
      exact readItems_nil
  | cons a as ih =>
      obtain ⟨space, name, literal⟩ := a
      rw [List.flatMap_cons] at written
      cases space with
      | none =>
          obtain ⟨n, _, rfl, isName, written⟩ := List.map_eq_cons_iff.1 written
          obtain ⟨e, _, rfl, isEquals, written⟩ := List.map_eq_cons_iff.1 written
          obtain ⟨v, ts, rfl, isValue, written⟩ := List.map_eq_cons_iff.1 written
          have equals : e.kind = .equals := (Spelling.mk.inj isEquals).1
          obtain ⟨value, found, same⟩ := literal.value_eq isValue
          have rest := ih written
          have read := rest.attribute
            (.assigned (name.isName isName) equals (Token.isLiteral_iff.2 ⟨_, found⟩)
              rest.grammatical)
            (Head.items_assigned (name.isName isName) equals found ts)
          rwa [name.word_eq isName, same] at read
      | some space =>
          obtain ⟨s, _, rfl, isSpace, written⟩ := List.map_eq_cons_iff.1 written
          obtain ⟨c, _, rfl, isColon, written⟩ := List.map_eq_cons_iff.1 written
          obtain ⟨n, _, rfl, isName, written⟩ := List.map_eq_cons_iff.1 written
          obtain ⟨e, _, rfl, isEquals, written⟩ := List.map_eq_cons_iff.1 written
          obtain ⟨v, ts, rfl, isValue, written⟩ := List.map_eq_cons_iff.1 written
          have colon : c.kind = .colon := (Spelling.mk.inj isColon).1
          have equals : e.kind = .equals := (Spelling.mk.inj isEquals).1
          obtain ⟨value, found, same⟩ := literal.value_eq isValue
          have rest := ih written
          have read := rest.attribute
            (.spaced (space.isName isSpace) colon (name.isName isName) equals
              (Token.isLiteral_iff.2 ⟨_, found⟩) rest.grammatical)
            (Head.items_spaced (space.isName isSpace) colon (name.isName isName) equals found ts)
          rwa [space.word_eq isSpace, spacedName_eq name isColon isName, same] at read

theorem read_items (vs : List Literal) (as : List Assignment) {ts : List Token}
    (written : ts.map Token.spelling =
      vs.map (Literal.spelling [' ']) ++ as.flatMap Assignment.spellings) :
    ReadItems ts (vs.map Literal.value) (as.map Assignment.attribute) := by
  induction vs generalizing ts with
  | nil => exact read_assignments as written
  | cons v vs ih =>
      obtain ⟨t, ts, rfl, isValue, written⟩ := List.map_eq_cons_iff.1 written
      obtain ⟨value, found, same⟩ := v.value_eq isValue
      have read := (ih written).literal found
      rwa [same] at read

/-- The tag that is read from its name and its items. -/
theorem ReadItems.read? {ws ts : List Token} {h₀ : Head} {values : List Value}
    {attributes : List Attribute} (items : ReadItems ts values attributes)
    (begun : Head.ofWords? ws = some (h₀, ts)) (noValues : h₀.values = [])
    (noAttributes : h₀.attributes = []) :
    ∃ h, Head.read? ws = some (h, []) ∧ ∀ start stop children,
      (h.toTag start stop children).strip Attribute.bare =
        ⟨h₀.space, h₀.name, ⟨0, 0⟩, none, values, attributes,
          Tag.stripAll Attribute.bare children⟩ := by
  refine ⟨(h₀.addItems (Head.items ts)).1, ?_, fun start stop children => ?_⟩
  · rw [Head.read?, begun, Option.map_some, ← items.noProblem h₀ (.inl noAttributes)]
  · obtain ⟨stop', same⟩ := Head.addItems_eq h₀ (Head.items ts)
    rw [same, Head.toTag, Tag.strip, noValues, noAttributes, List.nil_append, List.nil_append,
      items.values_eq, items.attributes_eq]

/-- The words of a tag are read as the tag. -/
theorem read_head (space : Option Name) (name : Name) (values : List Literal)
    (attributes : List Assignment) {ws : List Token}
    (written : ws.map Token.spelling = headSpellings space name values attributes) :
    Phrase ws ∧ ∃ first words h, ws = first :: words ∧ Head.read? ws = some (h, []) ∧
      ∀ start stop children, (h.toTag start stop children).strip Attribute.bare =
        ⟨space.map Name.word, name.word, ⟨0, 0⟩, none, values.map Literal.value,
          attributes.map Assignment.attribute, Tag.stripAll Attribute.bare children⟩ := by
  cases space with
  | none =>
      obtain ⟨n, ts, rfl, isName, written⟩ := List.map_eq_cons_iff.1 written
      have items := read_items values attributes written
      have plain : ¬ OpensSpace ts := by
        rcases ts with _ | ⟨c, _ | ⟨m, ts⟩⟩
        · exact id
        · exact id
        · intro opens
          exact items.grammatical.head?_ne_colon c rfl opens.1
      have begun := Head.ofWords?_plain (name.isName isName) plain
      obtain ⟨h, read, same⟩ := items.read? begun rfl rfl
      refine ⟨.plain (name.isName isName) plain items.grammatical, n, ts, h, rfl, read, ?_⟩
      rw [name.word_eq isName] at same
      exact same
  | some space =>
      obtain ⟨s, _, rfl, isSpace, written⟩ := List.map_eq_cons_iff.1 written
      obtain ⟨c, _, rfl, isColon, written⟩ := List.map_eq_cons_iff.1 written
      obtain ⟨n, ts, rfl, isName, written⟩ := List.map_eq_cons_iff.1 written
      have items := read_items values attributes written
      have colon : c.kind = .colon := (Spelling.mk.inj isColon).1
      have begun := Head.ofWords?_spaced (space.isName isSpace) colon (name.isName isName) ts
      obtain ⟨h, read, same⟩ := items.read? begun rfl rfl
      refine ⟨.spaced (space.isName isSpace) colon (name.isName isName) items.grammatical,
        s, c :: n :: ts, h, rfl, read, ?_⟩
      rw [space.word_eq isSpace, name.word_eq isName] at same
      exact same

/-- Statements that are read as some tags without any problem, at each level from which
`levels` more can be opened. -/
structure ReadAs (ss : List Statement) (levels : Nat) (tags : List Sdl.Tag) : Prop where
  balanced : Statement.Balanced ss
  read : ∀ textStop depth, depth + levels ≤ maxDepth + 1 →
    (tagsOf textStop depth ss).2 = [] ∧
      Tag.stripAll Attribute.bare (tagsOf textStop depth ss).1 = tags

section ReadAs

variable {first f : Token} {words : List Token} {h : Head} {r : List Statement} {levels : Nat}
  {tags : List Sdl.Tag} {build : List Sdl.Tag → Sdl.Tag}

/-- A tag without a block on a line of its own. -/
theorem ReadAs.line (rest : ReadAs r levels tags) (phrase : Phrase (first :: words))
    (read : Head.read? (first :: words) = some (h, [])) (newline : f.IsSeparator)
    (same : ∀ start stop children, (h.toTag start stop children).strip Attribute.bare =
      build (Tag.stripAll Attribute.bare children)) :
    ReadAs (.line (first :: words) :: .separator f :: r) (max 1 levels) (build [] :: tags) where
  balanced := .line (by simp) phrase.words trivial (.separator newline rest.balanced)
  read := by
    intro textStop depth low
    obtain ⟨problems, tagsRest⟩ := rest.read textStop depth (by omega)
    rw [tagsOf_line read, tagsOf]
    refine ⟨problems, ?_⟩
    rw [Tag.stripAll, same, tagsRest]
    rfl

/-- A tag with a block.  Its children take a level of their own, so that the block may be
opened. -/
theorem ReadAs.block {o g c : Token} {b : List Statement} {inner : Nat} {children : List Sdl.Tag}
    (body : ReadAs b inner children) (rest : ReadAs r levels tags)
    (phrase : Phrase (first :: words)) (read : Head.read? (first :: words) = some (h, []))
    (opening : o.kind = .leftBrace) (feed : g.IsSeparator) (closing : c.kind = .rightBrace)
    (newline : f.IsSeparator) (nonempty : 1 ≤ inner)
    (same : ∀ start stop children, (h.toTag start stop children).strip Attribute.bare =
      build (Tag.stripAll Attribute.bare children)) :
    ReadAs (.block (first :: words) o (.separator g :: b) (some c) :: .separator f :: r)
      (max (inner + 1) levels) (build children :: tags) where
  balanced := .block phrase.words opening (.separator feed body.balanced) closing
    (.separator newline rest.balanced)
  read := by
    intro textStop depth low
    obtain ⟨problems, tagsRest⟩ := rest.read textStop depth (by omega)
    obtain ⟨problemsBody, tagsBody⟩ := body.read textStop (depth + 1) (by omega)
    -- The body needs a level of its own, so one more block may be opened here.
    have shallow : depth < maxDepth := by omega
    rw [tagsOf_block shallow read, tagsOf, tagsOf]
    refine ⟨by simp [problems, problemsBody], ?_⟩
    rw [Tag.stripAll, same, tagsBody, tagsRest]

end ReadAs

/-- The tokens of a forest are read as the forest. -/
theorem read_spellings (pad : Nat) : ∀ (forest : List Tag) {ts : List Token},
    ts.map Token.spelling = spellings pad forest →
      ∃ ss, Statement.tokensOfList ss = ts ∧ ReadAs ss (heightAll forest) (tags forest)
  | [], ts, written => by
      obtain rfl : ts = [] := by simpa [spellings] using written
      exact ⟨[], rfl, .nil, fun _ _ _ => by simp [tagsOf, Tag.stripAll, tags]⟩
  | .node space name values attributes children :: forest, ts, written => by
      have inner := @read_spellings pad children
      have behind := @read_spellings pad forest
      rw [spellings, spellingsTag] at written
      -- The tokens are cut where the printer puts the head, the block and the line feed.
      obtain ⟨here, rest, rfl, written, writtenRest⟩ := List.map_eq_append_iff.1 written
      obtain ⟨ws, ts, rfl, writtenHead, written⟩ := List.map_eq_append_iff.1 written
      obtain ⟨block, feed, rfl, writtenBlock, writtenFeed⟩ := List.map_eq_append_iff.1 written
      obtain ⟨f, _, rfl, isFeed, writtenFeed⟩ := List.map_eq_cons_iff.1 writtenFeed
      obtain rfl := List.map_eq_nil_iff.1 writtenFeed
      have newline : f.IsSeparator := .inl (Spelling.mk.inj isFeed).1
      obtain ⟨phrase, first, words, h, rfl, read, same⟩ :=
        read_head space name values attributes writtenHead
      obtain ⟨ssRest, rfl, readRest⟩ := behind writtenRest
      cases children with
      | nil =>
          obtain rfl := List.map_eq_nil_iff.1 writtenBlock
          exact ⟨.line (first :: words) :: .separator f :: ssRest,
            by simp [Statement.tokensOfList, Statement.tokens],
            readRest.line phrase read newline same⟩
      | cons child children =>
          rw [if_neg (by simp)] at writtenBlock
          obtain ⟨o, _, rfl, isOpening, writtenBlock⟩ := List.map_eq_cons_iff.1 writtenBlock
          obtain ⟨g, _, rfl, isFeed', writtenBlock⟩ := List.map_eq_cons_iff.1 writtenBlock
          obtain ⟨body, closing, rfl, writtenBody, writtenClosing⟩ :=
            List.map_eq_append_iff.1 writtenBlock
          obtain ⟨c, _, rfl, isClosing, writtenClosing⟩ := List.map_eq_cons_iff.1 writtenClosing
          obtain rfl := List.map_eq_nil_iff.1 writtenClosing
          obtain ⟨ssBody, rfl, readBody⟩ := inner writtenBody
          have nonempty : 1 ≤ heightAll (child :: children) := by
            cases child
            rw [heightAll, height]
            omega
          exact ⟨.block (first :: words) o (.separator g :: ssBody) (some c) :: .separator f ::
              ssRest, by simp [Statement.tokensOfList, Statement.tokens],
            readBody.block readRest phrase read (Spelling.mk.inj isOpening).1
              (.inl (Spelling.mk.inj isFeed').1) (Spelling.mk.inj isClosing).1 newline nonempty
              same⟩

/-- **What is written is read back.**  The text of a forest that is not too high has no
problems, and its tags are those of the forest, places aside. -/
theorem ofText_print (pad : Nat) (forest : List Tag) (low : heightAll forest ≤ maxDepth + 1) :
    (Document.ofText (print pad forest)).problems = [] ∧
      Tag.stripAll Attribute.bare (Document.ofText (print pad forest)).root.children =
        tags forest := by
  have legible := legible_spellings pad forest []
  rw [← chars_spellings]
  obtain ⟨written, lexes⟩ := Lexing.of_legible legible
  obtain ⟨ss, tokens, balanced, read⟩ := read_spellings pad forest written
  have statements :
      Statement.ofTokens (Lexing.ofText ((spellings pad forest).flatMap Spelling.chars)).tokens =
        ss := by
    rw [← tokens, Statement.ofTokens_tokensOfList balanced]
  obtain ⟨problems, same⟩ := read
    (((Lexing.ofText ((spellings pad forest).flatMap Spelling.chars)).tokens.getLast?.map
      Token.stop).getD 0) 0 (by omega)
  rw [← statements] at problems same
  constructor
  · simp only [Document.ofText, lexes, problems, List.append_nil, Problem.sort,
      List.mergeSort_nil]
  · exact same

/-- A tag with a value, and in its block one with an attribute in a namespace. -/
theorem ofText_print_nested :
    let a : Name := ⟨['a'], by cbv, by decide⟩
    let b : Name := ⟨['b'], by cbv, by decide⟩
    let forest := [Tag.node none a [.string ['"', '\n']] []
      [.node (some a) b [.integer true ['7'] (by decide) (List.all_eq_true.1 (by decide))]
        [⟨some b, a, .null⟩] []]]
    heightAll forest ≤ maxDepth + 1 ∧
      print 1 forest = "a \"\\\"\\n\" \x7b\na:b -7 b:a=null\n\x7d\n".toList ∧
      (Document.ofText (print 1 forest)).problems = [] ∧
      Tag.stripAll Attribute.bare (Document.ofText (print 1 forest)).root.children =
        tags forest := by
  intro a b forest
  exact ⟨by decide, by decide, ofText_print 1 forest (by decide)⟩

end PackageRecipe.Sdl.Written
