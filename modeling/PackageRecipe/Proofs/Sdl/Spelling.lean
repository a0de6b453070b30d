import PackageRecipe.Proofs.Sdl.Numeral
import PackageRecipe.Proofs.Sdl.Placement

/-!
# Texts that are written token by token

When a text is written as a sequence of tokens, each with some blanks in front of it,
the scanner finds these tokens again, provided that no token runs into the next one.

## Main Definitions

* `Spelling` — a token as it is written, without a place
* `Spelling.ReadBefore` — it is read as that token in front of a text
* `Legible` — spellings of which each is read in front of the next ones

## Design Notes

`Legible` is stated for what follows the spellings, so that a text can be checked part
by part (`legible_append`).  For each kind of token that a writer needs there is one
lemma that says what may follow it (`readBefore_identifier` and so on), and nothing
else about the scanner is used by those who write.
-/

namespace PackageRecipe.Sdl

open PackageRecipe.Text

/-- A token as it is written: its kind, its text and the blanks in front of it. -/
structure Spelling where
  kind : TokenKind
  text : List Char
  gap : List Char := []

/-- How a token is written. -/
def Token.spelling (t : Token) : Spelling := ⟨t.kind, t.text, t.gap⟩

namespace Spelling

/-- The characters that are written. -/
def chars (w : Spelling) : List Char := w.gap ++ w.text

/-- In front of `next` the scanner reads the text as a token of the kind, and finds
nothing wrong with it. -/
structure ReadBefore (w : Spelling) (next : List Char) : Prop where
  begins : ∃ c s, w.text = c :: s ∧ Piece.Begins c (s ++ next) (.token w.kind) s.length
  noProblem : ∀ start, (Piece.mk (.token w.kind) w.text).problem? start = none

end Spelling

/-- Spellings that are read in front of `next`, with blanks between them. -/
def Legible (next : List Char) : List Spelling → Prop
  | [] => True
  | w :: ws =>
    (∀ c ∈ w.gap, Piece.isLineBlank c) ∧ w.ReadBefore (ws.flatMap Spelling.chars ++ next) ∧
      Legible next ws

theorem legible_append {next : List Char} {ws vs : List Spelling} :
    Legible next (ws ++ vs) ↔
      Legible (vs.flatMap Spelling.chars ++ next) ws ∧ Legible next vs := by
  induction ws with
  | nil => simp [Legible]
  | cons w ws ih => simp [Legible, ih, and_assoc]

/-! ## Scanning what was written -/

/-- Blanks become a part of the gap. -/
theorem ofPieces_split_blanks {blanks : List Char} (blank : ∀ c ∈ blanks, Piece.isLineBlank c)
    (s : List Char) (start : Nat) (gap : List Char) :
    Token.ofPieces start gap (Piece.split (blanks ++ s)) =
        Token.ofPieces (start + width blanks) (gap ++ blanks) (Piece.split s) ∧
      Piece.problems start (Piece.split (blanks ++ s)) =
        Piece.problems (start + width blanks) (Piece.split s) := by
  induction blanks generalizing start gap with
  | nil => simp
  | cons c blanks ih =>
      obtain ⟨first, rest⟩ := List.forall_mem_cons.1 blank
      have piece : Piece.split (c :: blanks ++ s) =
          ⟨.blank, [c]⟩ :: Piece.split (blanks ++ s) :=
        Piece.split_eq_cons (.blank first)
      obtain ⟨tokens, problems⟩ := ih rest (start + width [c]) (gap ++ [c])
      rw [piece, Token.ofPieces, Piece.problems, problems, tokens]
      simp [Piece.problem?, Nat.add_assoc]

theorem split_of_legible {ws : List Spelling} (legible : Legible [] ws) (start : Nat) :
    (Token.ofPieces start [] (Piece.split (ws.flatMap Spelling.chars))).map Token.spelling = ws ∧
      Piece.problems start (Piece.split (ws.flatMap Spelling.chars)) = [] := by
  induction ws generalizing start with
  | nil => simp [Piece.split, Token.ofPieces, Piece.problems]
  | cons w ws ih =>
      obtain ⟨blank, ⟨⟨c, s, text, begun⟩, noProblem⟩, rest⟩ := legible
      rw [List.append_nil] at begun
      -- First the blanks, then the token itself, then the others.
      obtain ⟨tokens, problems⟩ := ofPieces_split_blanks blank
        (w.text ++ ws.flatMap Spelling.chars) start []
      have piece : Piece.split (w.text ++ ws.flatMap Spelling.chars) =
          ⟨.token w.kind, w.text⟩ :: Piece.split (ws.flatMap Spelling.chars) := by
        rw [text, List.cons_append, Piece.split_eq_cons begun, List.take_left, List.drop_left]
      obtain ⟨tokens', problems'⟩ := ih rest (start + width w.gap + width w.text)
      rw [List.flatMap_cons, Spelling.chars, List.append_assoc, tokens, problems, piece,
        Token.ofPieces, Piece.problems, noProblem, problems']
      simp only [List.map_cons, tokens', List.nil_append]
      exact ⟨rfl, rfl⟩

/-- **What was written legibly is read back.** -/
theorem Lexing.of_legible {ws : List Spelling} (legible : Legible [] ws) :
    (Lexing.ofText (ws.flatMap Spelling.chars)).tokens.map Token.spelling = ws ∧
      (Lexing.ofText (ws.flatMap Spelling.chars)).problems = [] :=
  split_of_legible legible 0

/-! ## What may follow a token -/

namespace Spelling

/-- A mark is read in front of everything. -/
theorem readBefore_mark {kind : TokenKind} {c : Char} (marked : kind.mark? = some c)
    (gap next : List Char) : ReadBefore ⟨kind, [c], gap⟩ next where
  begins := ⟨c, [], rfl, .mark marked⟩
  noProblem := by
    intro start
    cases kind <;> simp [TokenKind.mark?] at marked <;> rfl

/-- An identifier is read in front of everything that does not continue it. -/
theorem readBefore_identifier {c : Char} {s : List Char} (first : Piece.isIdentifierStart c)
    (rest : ∀ a ∈ s, Piece.isIdentifierChar a) (gap : List Char) {next : List Char}
    (ends : ∀ a ∈ next.head?, Piece.isIdentifierChar a = false) :
    ReadBefore ⟨.identifier, c :: s, gap⟩ next where
  begins := by
    refine ⟨c, s, rfl, ?_⟩
    have begun := Piece.Begins.identifier (s := s ++ next) first
    rwa [Piece.run_append rest ends] at begun
  noProblem := fun _ => rfl

theorem quoted_encodeChar (c : Char) (r : List Char) :
    Piece.quoted (Escape.encodeChar c ++ r) =
      ((Piece.quoted r).1 + (Escape.encodeChar c).length, (Piece.quoted r).2) := by
  unfold Escape.encodeChar
  split
  case h_6 noBackslash noQuote noFeed _ _ =>
    exact Piece.quoted_plain (by simpa using ⟨noFeed, noQuote, noBackslash⟩) r
  all_goals exact Piece.quoted_escape (by decide) r

/-- The body of a string is read up to its closing quote. -/
theorem quoted_encode (s next : List Char) :
    Piece.quoted (Escape.encode s ++ '"' :: next) = ((Escape.encode s).length + 1, true) := by
  induction s with
  | nil => simp [Escape.encode, Piece.quoted]
  | cons c s ih =>
      have step : Escape.encode (c :: s) = Escape.encodeChar c ++ Escape.encode s := rfl
      rw [step, List.append_assoc, quoted_encodeChar, ih, List.length_append]
      exact congrArg (·, true) (by omega)

/-- A string is read in front of everything. -/
theorem readBefore_string (s gap next : List Char) :
    ReadBefore ⟨.string false true, '"' :: (Escape.encode s ++ ['"']), gap⟩ next where
  begins := by
    refine ⟨'"', _, rfl, ?_⟩
    have begun := Piece.Begins.quoted (c := '"') (s := Escape.encode s ++ ['"'] ++ next) rfl
    rw [List.append_assoc, List.singleton_append, quoted_encode] at begun
    simpa using begun
  noProblem := fun _ => rfl

/-! ### Integers -/

/-- The text of an integer: an optional minus sign and its digits. -/
def integerText (negative : Bool) (digits : List Char) : List Char :=
  if negative then '-' :: digits else digits

variable {digits : List Char}

theorem isNumeralChar_of_isDigit {c : Char} (digit : c.isDigit) : Numeral.isNumeralChar c := by
  simp [Numeral.isNumeralChar, Char.isAlphanum, digit]

theorem matches_digits (all : ∀ c ∈ digits, c.isDigit) (nonempty : digits ≠ []) :
    Pattern.Matches Numeral.digits digits := by
  have many : ∀ {ds : List Char}, (∀ c ∈ ds, c.isDigit) →
      Pattern.Matches (.many Numeral.digit) ds := by
    intro ds all
    induction ds with
    | nil => exact .stop
    | cons d ds ih =>
        obtain ⟨first, rest⟩ := List.forall_mem_cons.1 all
        exact .more (s := [d]) (.one (isDecimalDigit_of_isDigit first)) (ih rest)
  obtain ⟨d, ds, rfl⟩ := List.exists_cons_of_ne_nil nonempty
  obtain ⟨first, rest⟩ := List.forall_mem_cons.1 all
  exact .seq (s := [d]) (.one (isDecimalDigit_of_isDigit first)) (many rest)

theorem isNumber_integerText (negative : Bool) (all : ∀ c ∈ digits, c.isDigit)
    (nonempty : digits ≠ []) : Numeral.isNumber (integerText negative digits) := by
  have sign : Pattern.Matches Numeral.sign (if negative then ['-'] else []) := by
    cases negative with
    | true => exact .left (.one rfl)
    | false => exact .right .empty
  have text : integerText negative digits =
      (if negative then ['-'] else []) ++ (digits ++ ([] ++ [])) := by
    cases negative <;> simp [integerText]
  have integer : Pattern.Matches Numeral.integer (integerText negative digits) := by
    rw [text]
    exact .seq sign (.seq (matches_digits all nonempty) (.seq (.right .empty) .empty))
  simp [Numeral.isNumber, (Pattern.accepts_iff_matches _ _).2 integer]

/-- An integer is read in front of everything that does not continue it. -/
theorem readBefore_integer (negative : Bool) (all : ∀ c ∈ digits, c.isDigit)
    (nonempty : digits ≠ []) (gap : List Char) {next : List Char}
    (ends : ∀ a ∈ next.head?, Numeral.isNumeralChar a = false) :
    ReadBefore ⟨.number, integerText negative digits, gap⟩ next where
  begins := by
    have numeral : ∀ c ∈ digits, Numeral.isNumeralChar c := fun c member =>
      isNumeralChar_of_isDigit (all c member)
    have denotes := Numeral.isNumber_iff.1 (isNumber_integerText negative all nonempty)
    obtain ⟨d, ds, rfl⟩ := List.exists_cons_of_ne_nil nonempty
    have first := all d List.mem_cons_self
    cases negative with
    | true =>
        have begun := Piece.Begins.numeral (c := '-') (s := d :: ds ++ next)
          (.inr ⟨.inl rfl, by simpa [Piece.digitFollows] using first⟩)
        rw [Numeral.Denotes.numeral_eq denotes numeral ends (by simp)] at begun
        exact ⟨'-', d :: ds, rfl, begun⟩
    | false =>
        have begun := Piece.Begins.numeral (c := d) (s := ds ++ next) (.inl first)
        rw [Numeral.Denotes.numeral_eq denotes (List.forall_mem_cons.1 numeral).2 ends
          (by simp)] at begun
        exact ⟨d, ds, rfl, begun⟩
  noProblem := by
    intro start
    simp [Piece.problem?, isNumber_integerText negative all nonempty]

end Spelling

end PackageRecipe.Sdl
