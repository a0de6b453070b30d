import Mathlib
import PackageRecipe.Proofs.Sdl.Braces
import PackageRecipe.Proofs.Sdl.Cutting
import PackageRecipe.Proofs.Sdl.Shifting

/-!
# Reading goes on at the next line

Whatever is wrong with some lines of a text, it has no influence on the lines behind
them, if no block, string or comment is left open: the document of the whole text is that
of its first lines, and behind it that of the other lines.

## Design Notes

The line feed cuts the text into pieces (`Piece.split_append_feed`), the tokens into
statements (`ofTokens_append_separator`), and the problems into those in front of it and
those behind it (`Problem.sort_interleave`).  What is read behind it is what is read from
the other lines alone, further behind (`tagsOf_shift`).
-/

namespace PackageRecipe.Sdl

open PackageRecipe.Text

/-! ## Statements behind a separator -/

namespace Statement

/-- Groups without an open block are found in front of a separator, too. -/
theorem Suffix.Leaves.close_foldr {cs : List Token} {s : Suffix} (leaves : s.Leaves cs [])
    {behind : Suffix} (separated : Separated behind.here) :
    ((tokensOfList s.close).foldr Suffix.cons behind).close = s.close ++ behind.close := by
  generalize none : ([] : List Token) = os at leaves
  induction leaves with
  | last opens =>
      subst none
      cases opens with
      | balanced balanced => simp [Suffix.close, balanced.foldr_cons separated]
  | stray balanced closing _ ih =>
      have rest := ih none
      rw [close_stray, tokensOfList_append, List.foldr_append, tokensOfList, tokens,
        List.singleton_append, List.foldr_cons, Suffix.cons_of_rightBrace closing,
        balanced.foldr_cons (s := ⟨[], _⟩) trivial, List.append_nil, close_stray, rest]
      simp

/-- Tokens without an open block form their own statements in front of a separator. -/
theorem ofTokens_append_separator {ts : List Token} (paired : (Unpaired.ofTokens ts).opened = [])
    {t : Token} (separator_ : t.IsSeparator) (us : List Token) :
    ofTokens (ts ++ t :: us) = ofTokens ts ++ separator t :: ofTokens us := by
  have leaves := leaves_ofTokens ts
  rw [paired, List.reverse_nil] at leaves
  have separated : Separated ((Suffix.ofTokens us).cons t).here := by
    rw [Suffix.cons_of_separator separator_]
    trivial
  have closed := leaves.close_foldr separated
  rw [show (Suffix.ofTokens ts).close = ofTokens ts from rfl, tokens_ofTokens] at closed
  rw [ofTokens, Suffix.ofTokens, List.foldr_append, List.foldr_cons]
  refine closed.trans ?_
  rw [Suffix.cons_of_separator separator_]
  rfl

/-- Balanced groups do not depend on the end of the text. -/
theorem Balanced.tagsOf_eq {ss : List Statement} (balanced : Balanced ss) (n m depth : Nat) :
    tagsOf n depth ss = tagsOf m depth ss := by
  induction balanced generalizing depth with
  | nil => simp [tagsOf]
  | separator _ _ ih => rw [tagsOf, tagsOf, ih]
  | @line ws r _ _ _ _ ih =>
      rw [tagsOf_cons_append n, tagsOf_cons_append m, ih]
      cases ws <;> simp [tagsOf]
  | @block ws o c b r _ _ _ _ _ ihBody ihRest =>
      rw [tagsOf_cons_append n, tagsOf_cons_append m, ihRest]
      cases ws <;> simp [tagsOf, ihBody]

theorem Suffix.Leaves.tagsOf_eq {cs : List Token} {s : Suffix} (leaves : s.Leaves cs [])
    (n m depth : Nat) : tagsOf n depth s.close = tagsOf m depth s.close := by
  generalize none : ([] : List Token) = os at leaves
  induction leaves with
  | last opens =>
      subst none
      cases opens with
      | balanced balanced => simpa [Suffix.close] using balanced.tagsOf_eq n m depth
  | stray balanced _ _ ih =>
      rw [close_stray, tagsOf_append, tagsOf_append, balanced.tagsOf_eq n m, tagsOf, tagsOf,
        ih none]

end Statement

/-! ## Lines -/

section Lines

variable {a : List Char} (closed : ∀ p ∈ Piece.split a, p.kind.leavesOpen = false)
  (noBackslash : ¬ Piece.endsInBackslash a) (b : List Char)

include closed noBackslash

/-- The tokens of lines: those of the first lines, the line feed, and those behind it. -/
theorem Lexing.tokens_append_line :
    ∃ t : Token, t.kind = .newline ∧ t.stop = width a + 1 ∧
      (Lexing.ofText (a ++ '\n' :: b)).tokens = (Lexing.ofText a).tokens ++
        t :: (Lexing.ofText b).tokens.map (Token.shift (width a + 1)) := by
  have cut := Piece.split_append_feed closed noBackslash b
  refine ⟨⟨.newline, ['\n'], Token.gapBehind [] (Piece.split a), width a⟩, rfl, rfl, ?_⟩
  have feed : width ['\n'] = 1 := rfl
  simp only [Lexing.ofText, cut, Token.ofPieces_append, Token.ofPieces, Piece.flatten_split, feed,
    Nat.zero_add, ← Token.ofPieces_shift]

theorem Lexing.problems_append_line :
    (Lexing.ofText (a ++ '\n' :: b)).problems = (Lexing.ofText a).problems ++
      (Lexing.ofText b).problems.map (Problem.shift (width a + 1)) := by
  have cut := Piece.split_append_feed closed noBackslash b
  have feed : width ['\n'] = 1 := rfl
  simp only [Lexing.ofText, cut, Piece.problems_append, Piece.problems, Piece.problem?,
    Option.toList_none, List.nil_append, Piece.flatten_split, feed, Nat.zero_add,
    ← Piece.problems_shift]

/-- The last token is one of those behind the line feed, or the line feed itself. -/
theorem textStop_append_line : textStop (a ++ '\n' :: b) = textStop b + (width a + 1) := by
  obtain ⟨t, -, stop, tokens⟩ := Lexing.tokens_append_line closed noBackslash b
  rw [textStop, tokens, textStop, List.getLast?_append, List.getLast?_cons, List.getLast?_map]
  cases (Lexing.ofText b).tokens.getLast? with
  | none => simpa using stop
  | some u => simp

/-- What is read from the statements of lines. -/
theorem tagsOfText_append_line (paired : (Unpaired.ofTokens (Lexing.ofText a).tokens).opened = []) :
    tagsOfText (a ++ '\n' :: b) =
      ((tagsOfText a).1 ++ (tagsOfText b).1.map (Tag.shift (width a + 1)),
        (tagsOfText a).2 ++ (tagsOfText b).2.map (Problem.shift (width a + 1))) := by
  obtain ⟨t, kind, -, tokens⟩ := Lexing.tokens_append_line closed noBackslash b
  have statements : Statement.ofText (a ++ '\n' :: b) = Statement.ofText a ++
      .separator t :: Statement.mapAll (Token.shift (width a + 1)) (Statement.ofText b) := by
    rw [Statement.ofText, tokens, Statement.ofTokens_append_separator paired (.inl kind),
      Statement.ofTokens_shift]
    rfl
  have leaves := Statement.leaves_ofTokens (Lexing.ofText a).tokens
  rw [paired, List.reverse_nil] at leaves
  have first (n : Nat) : tagsOf n 0 (Statement.ofText a) = tagsOfText a := leaves.tagsOf_eq _ _ _
  rw [tagsOfText, textStop_append_line closed noBackslash, statements, tagsOf_append, tagsOf,
    tagsOf_shift, first]
  rfl

end Lines

/-- The problems of the statements of a text begin in it. -/
theorem start_le_width {text : List Char} {p : Problem} (member : p ∈ (tagsOfText text).2) :
    p.span.start ≤ width text := by
  obtain ⟨t, member, start⟩ := ((Statement.grouped_ofTokens _).ofStatements member).start
  rw [Statement.tokens_ofTokens] at member
  have bounds := (Token.bounds_of_mem_ofPieces member).2
  rw [Piece.flatten_split, Nat.zero_add] at bounds
  rw [start]
  exact Nat.le_trans (Nat.le_add_right _ _) bounds

/-- **Reading goes on at the next line.**  Behind lines that leave no block, no raw string,
no binary and no comment open, and that do not end in a backslash, other lines are read as
if they stood alone: all tags and all problems of both are those of the whole text, with
the places of the latter shifted. -/
theorem Document.ofText_append_line {a : List Char}
    (paired : (Unpaired.ofTokens (Lexing.ofText a).tokens).opened = [])
    (closed : ∀ p ∈ Piece.split a, p.kind.leavesOpen = false)
    (noBackslash : ¬ Piece.endsInBackslash a) (b : List Char) :
    (Document.ofText (a ++ '\n' :: b)).root.children = (Document.ofText a).root.children ++
        (Document.ofText b).root.children.map (Tag.shift (width a + 1)) ∧
      (Document.ofText (a ++ '\n' :: b)).problems = (Document.ofText a).problems ++
        (Document.ofText b).problems.map (Problem.shift (width a + 1)) := by
  have read := tagsOfText_append_line closed noBackslash b paired
  have scanned := Lexing.problems_append_line closed noBackslash b
  simp only [Document.ofText_eq, read, scanned]
  refine ⟨rfl, ?_⟩
  rw [← Problem.sort_shift, List.map_append]
  apply Problem.sort_interleave (m := width a)
  · intro p member
    rcases List.mem_append.1 member with member | member
    · have bounds := (Piece.of_mem_problems member).2.2
      rwa [Piece.flatten_split, Nat.zero_add] at bounds
    · exact start_le_width member
  · intro p member
    rw [← List.map_append, List.mem_map] at member
    obtain ⟨q, -, rfl⟩ := member
    exact Nat.lt_of_lt_of_le (Nat.lt_succ_self _) (Nat.le_add_left _ _)

/-- A stray brace, a statement without a name and a string that is not closed leave the
next line alone, and a block that is open there stays its own matter. -/
theorem Document.ofText_append_line_malformed :
    (Unpaired.ofTokens (Lexing.ofText "\x7d t \x7bu\x7d = \"x".toList).tokens).opened = [] ∧
      (∀ p ∈ Piece.split "\x7d t \x7bu\x7d = \"x".toList, p.kind.leavesOpen = false) ∧
      ¬ Piece.endsInBackslash "\x7d t \x7bu\x7d = \"x".toList ∧
      (Document.ofText ("\x7d t \x7bu\x7d = \"x".toList ++ '\n' :: "v \x7b".toList)).problems =
        (Document.ofText "\x7d t \x7bu\x7d = \"x".toList).problems ++
          (Document.ofText "v \x7b".toList).problems.map
            (Problem.shift (width "\x7d t \x7bu\x7d = \"x".toList + 1)) := by
  have paired : (Unpaired.ofTokens
      (Lexing.ofText "\x7d t \x7bu\x7d = \"x".toList).tokens).opened = [] := by cbv
  have kinds : (Piece.split "\x7d t \x7bu\x7d = \"x".toList).all
      (fun p => !p.kind.leavesOpen) := by cbv
  have closed : ∀ p ∈ Piece.split "\x7d t \x7bu\x7d = \"x".toList,
      p.kind.leavesOpen = false := by simpa using kinds
  have last : Piece.endsInBackslash "\x7d t \x7bu\x7d = \"x".toList = false := by cbv
  have noBackslash : ¬ Piece.endsInBackslash "\x7d t \x7bu\x7d = \"x".toList := by
    rw [last]
    exact Bool.false_ne_true
  exact ⟨paired, closed, noBackslash,
    (Document.ofText_append_line paired closed noBackslash "v \x7b".toList).2⟩

end PackageRecipe.Sdl
