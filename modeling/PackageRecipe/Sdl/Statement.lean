import PackageRecipe.Sdl.Token

/-!
# Statements

Tokens group into statements by their kinds alone: newlines and semicolons
separate statements, a block in braces ends one. `Statement.ofTokens` builds the
groups from the right, matching each closing brace with the opening brace that
it meets; `Statement.tokens` reads them back, and nothing is lost:
`tokens_ofTokens`.
-/

namespace PackageRecipe.Sdl

/-- A part of a token sequence at one level of nesting. -/
inductive Statement where
  /-- A newline or a semicolon. -/
  | separator (token : Token)
  /-- A closing brace that closes nothing. -/
  | stray (brace : Token)
  /-- The tokens of a statement without a block. -/
  | line (words : List Token)
  /-- The tokens of a statement and its block; the closing brace is absent when
  the text ends before it. -/
  | block (words : List Token) (opening : Token) (body : List Statement) (closing : Option Token)

namespace Statement

/-- The groups to the right of a place in a token sequence: those up to the next
closing brace that has no partner yet, and for each such brace the groups behind
it. -/
structure Suffix where
  here : List Statement
  outer : List (Token × List Statement)

/-- Puts a token of a statement in front of the groups on its right. -/
def consWord (t : Token) : List Statement → List Statement
  | line ws :: r => line (t :: ws) :: r
  | block ws o b c :: r => block (t :: ws) o b c :: r
  | r => line [t] :: r

/-- Puts a token in front of the groups on its right. An opening brace takes the
groups up to the next closing brace for its block, or all that follow. -/
def Suffix.cons (t : Token) (s : Suffix) : Suffix :=
  match t.kind with
  | .newline | .semicolon => { s with here := separator t :: s.here }
  | .rightBrace => ⟨[], (t, s.here) :: s.outer⟩
  | .leftBrace =>
    match s.outer with
    | (c, r) :: outer => ⟨block [] t s.here (some c) :: r, outer⟩
    | [] => ⟨[block [] t s.here none], []⟩
  | _ => { s with here := consWord t s.here }

/-- Closing braces without a partner stand for themselves. -/
def Suffix.close (s : Suffix) : List Statement :=
  s.here ++ s.outer.flatMap fun (c, r) => stray c :: r

/-- The groups to the right of a place, for the tokens that follow it. -/
def Suffix.ofTokens (ts : List Token) : Suffix :=
  ts.foldr Suffix.cons ⟨[], []⟩

/-- The statements of a token sequence. -/
def ofTokens (ts : List Token) : List Statement :=
  (Suffix.ofTokens ts).close

mutual

/-- The tokens of a statement. -/
def tokens : Statement → List Token
  | separator t => [t]
  | stray t => [t]
  | line ws => ws
  | block ws o b c => ws ++ o :: (tokensOfList b ++ c.toList)

/-- The tokens of statements one after the other. -/
def tokensOfList : List Statement → List Token
  | [] => []
  | s :: r => tokens s ++ tokensOfList r

end

theorem tokensOfList_append (a b : List Statement) :
    tokensOfList (a ++ b) = tokensOfList a ++ tokensOfList b := by
  induction a with
  | nil => rfl
  | cons s r ih => simp [tokensOfList, ih]

theorem tokensOfList_consWord (t : Token) (r : List Statement) :
    tokensOfList (consWord t r) = t :: tokensOfList r := by
  unfold consWord
  split <;> simp [tokensOfList, tokens]

/-- Adding a token adds it to the tokens read back. -/
theorem tokens_close_cons (t : Token) (s : Suffix) :
    tokensOfList (s.cons t).close = t :: tokensOfList s.close := by
  unfold Suffix.cons Suffix.close
  split
  · simp [tokensOfList, tokens]
  · simp [tokensOfList, tokens]
  · simp [tokensOfList, tokens, tokensOfList_append]
  · split
    · rename_i h
      simp [tokensOfList, tokens, tokensOfList_append, h]
    · rename_i h
      simp [tokensOfList, tokens, h]
  · simp [tokensOfList_append, tokensOfList_consWord]

/-- Nothing is lost when tokens are grouped. -/
theorem tokens_ofTokens (ts : List Token) : tokensOfList (ofTokens ts) = ts := by
  induction ts with
  | nil => rfl
  | cons t r ih =>
    rw [ofTokens, Suffix.ofTokens, List.foldr_cons, tokens_close_cons]
    exact congrArg _ ih

end Statement

end PackageRecipe.Sdl
