import PackageRecipe.Proofs.Sdl.Grouping
import PackageRecipe.Proofs.Sdl.Phrase
import PackageRecipe.Proofs.Sdl.Placement

/-!
# The grammar of documents

Which token sequences are read without an error.  The grammar is given twice: over
tokens, as a reader of the format knows it, and over statements, as the tags are
built from them.

## Main Definitions

* `Doc` — the grammar over tokens
* `Statement.Clean` — the same over statements
* `Statement.Reads` — the tags of statements of the grammar

## Design Notes

`Clean` groups are balanced, so they are what their tokens group into, and both
forms of the grammar say the same about a text (`doc_iff_clean`).  `Reads` leaves
out what only matters for errors, the levels and the end of the text; all facts
about the tags of a text without errors are proved by induction over it.

What a single line and a single block give, in any text, is listed by
`tagsOf_line_cases` and `tagsOf_block_cases`; with `tagsOf_cons_append` they stand
for the definition of `tagsOf` wherever a text may have errors.
-/

namespace PackageRecipe.Sdl

open PackageRecipe.Text

/-! ## The grammar over tokens -/

/-- What stands behind a tag that no block ends: a separator, or nothing further
at this level. -/
def EndsTag (ts : List Token) : Prop :=
  ∀ t ∈ ts.head?, t.IsSeparator

/-- The tokens of a document, or of the inside of a block, in which at most `depth`
blocks are open at once. -/
inductive Doc : Nat → List Token → Prop where
  | nil {depth : Nat} : Doc depth []
  | separator {depth : Nat} {t : Token} {ts : List Token} :
      t.IsSeparator → Doc depth ts → Doc depth (t :: ts)
  | line {depth : Nat} {ws ts : List Token} :
      Phrase ws → EndsTag ts → Doc depth ts → Doc depth (ws ++ ts)
  | block {depth : Nat} {ws body ts : List Token} {o c : Token} :
      Phrase ws → o.kind = .leftBrace → Doc depth body → c.kind = .rightBrace →
      Doc (depth + 1) ts → Doc (depth + 1) (ws ++ o :: (body ++ c :: ts))

/-! ## The grammar over statements -/

namespace Statement

/-- Statements that are read without an error if `depth` more blocks may be
opened. -/
inductive Clean : Nat → List Statement → Prop where
  | nil {depth : Nat} : Clean depth []
  | separator {depth : Nat} {t : Token} {r : List Statement} :
      t.IsSeparator → Clean depth r → Clean depth (separator t :: r)
  | line {depth : Nat} {ws : List Token} {r : List Statement} :
      Phrase ws → Separated r → Clean depth r → Clean depth (line ws :: r)
  | block {depth : Nat} {ws : List Token} {o c : Token} {b r : List Statement} :
      Phrase ws → o.kind = .leftBrace → Clean depth b → c.kind = .rightBrace →
      Clean (depth + 1) r → Clean (depth + 1) (block ws o b (some c) :: r)

variable {depth : Nat} {ss : List Statement}

theorem clean_separator_iff {t : Token} :
    Clean depth (separator t :: ss) ↔ t.IsSeparator ∧ Clean depth ss := by
  constructor
  · intro clean
    cases clean with
    | separator isSeparator clean => exact ⟨isSeparator, clean⟩
  · rintro ⟨isSeparator, clean⟩
    exact .separator isSeparator clean

theorem not_clean_stray {t : Token} : ¬ Clean depth (stray t :: ss) := by
  nofun

theorem clean_line_iff {ws : List Token} :
    Clean depth (line ws :: ss) ↔ Phrase ws ∧ Separated ss ∧ Clean depth ss := by
  constructor
  · intro clean
    cases clean with
    | line phrase separated clean => exact ⟨phrase, separated, clean⟩
  · rintro ⟨phrase, separated, clean⟩
    exact .line phrase separated clean

theorem clean_block_iff {ws : List Token} {o : Token} {b : List Statement} {c : Option Token} :
    Clean depth (block ws o b c :: ss) ↔
      Phrase ws ∧ o.kind = .leftBrace ∧ (∃ t, c = some t ∧ t.kind = .rightBrace) ∧
        (∃ d, depth = d + 1 ∧ Clean d b) ∧ Clean depth ss := by
  constructor
  · intro clean
    cases clean with
    | block phrase opening body closing rest =>
        exact ⟨phrase, opening, ⟨_, rfl, closing⟩, ⟨_, rfl, body⟩, rest⟩
  · rintro ⟨phrase, opening, ⟨t, rfl, closing⟩, ⟨d, rfl, body⟩, rest⟩
    exact .block phrase opening body closing rest

theorem Clean.balanced (clean : Clean depth ss) : Balanced ss := by
  induction clean with
  | nil => exact .nil
  | separator isSeparator _ ih => exact .separator isSeparator ih
  | line phrase separated _ ih => exact .line phrase.ne_nil phrase.words separated ih
  | block phrase opening _ closing _ ihBody ihRest =>
      exact .block phrase.words opening ihBody closing ihRest

/-- More levels do no harm. -/
theorem Clean.mono (clean : Clean depth ss) {depth' : Nat} (more : depth ≤ depth') :
    Clean depth' ss := by
  induction clean generalizing depth' with
  | nil => exact .nil
  | separator isSeparator _ ih => exact .separator isSeparator (ih more)
  | line phrase separated _ ih => exact .line phrase separated (ih more)
  | block phrase opening _ closing _ ihBody ihRest =>
      obtain ⟨d, rfl⟩ := Nat.exists_eq_add_of_le' (Nat.le_trans (Nat.le_add_left 1 _) more)
      exact .block phrase opening (ihBody (Nat.le_of_succ_le_succ more)) closing (ihRest more)

/-- The tokens of words do not begin with a separator. -/
theorem not_endsTag_append {ws : List Token} (phrase : Phrase ws) (ts : List Token) :
    ¬ EndsTag (ws ++ ts) := by
  intro ends
  cases ws with
  | nil => exact phrase.ne_nil rfl
  | cons w ws =>
      have word := phrase.words w List.mem_cons_self
      rcases ends w (by simp) with kind | kind <;> simp [Token.endsStatement, kind] at word

/-- Both ways to say what follows a tag agree. -/
theorem Clean.separated_iff (clean : Clean depth ss) :
    Separated ss ↔ EndsTag (tokensOfList ss) := by
  cases clean with
  | nil => simp [Separated, EndsTag, tokensOfList]
  | separator isSeparator _ => simpa [Separated, EndsTag, tokensOfList, tokens] using isSeparator
  | line phrase _ _ => exact iff_of_false id (not_endsTag_append phrase _)
  | block phrase _ _ _ _ =>
      rw [tokensOfList_block]
      exact iff_of_false id (not_endsTag_append phrase _)

/-- **The two forms of the grammar agree.** -/
theorem doc_iff_clean {ts : List Token} : Doc depth ts ↔ Clean depth (ofTokens ts) := by
  constructor
  · intro doc
    have grouped : ∃ ss, tokensOfList ss = ts ∧ Clean depth ss := by
      induction doc with
      | nil => exact ⟨[], rfl, .nil⟩
      | separator isSeparator _ ih =>
          obtain ⟨r, rfl, clean⟩ := ih
          exact ⟨separator _ :: r, rfl, .separator isSeparator clean⟩
      | line phrase ends _ ih =>
          obtain ⟨r, rfl, clean⟩ := ih
          exact ⟨line _ :: r, rfl, .line phrase (clean.separated_iff.2 ends) clean⟩
      | block phrase opening _ closing _ ihBody ihRest =>
          obtain ⟨b, rfl, cleanBody⟩ := ihBody
          obtain ⟨r, rfl, cleanRest⟩ := ihRest
          exact ⟨block _ _ b (some _) :: r, tokensOfList_block _ _ _ _ _,
            .block phrase opening cleanBody closing cleanRest⟩
    obtain ⟨ss, rfl, clean⟩ := grouped
    -- The groups are balanced, so grouping their tokens gives no others.
    rwa [ofTokens_tokensOfList clean.balanced]
  · intro clean
    rw [← tokens_ofTokens ts]
    generalize ofTokens ts = ss at clean
    induction clean with
    | nil => exact .nil
    | separator isSeparator _ ih => exact .separator isSeparator ih
    | line phrase separated clean ih => exact .line phrase (clean.separated_iff.1 separated) ih
    | block phrase opening _ closing _ ihBody ihRest =>
        rw [tokensOfList_block]
        exact .block phrase opening ihBody closing ihRest

end Statement

/-! ## The tags of statements -/

section Tags

variable {textStop depth : Nat} {first : Token} {words : List Token} {h : Head} {ps : List Problem}
  {r : List Statement}

theorem tagsOf_line (read : Head.read? (first :: words) = some (h, ps)) :
    tagsOf textStop depth (.line (first :: words) :: r) =
      (h.toTag first.start h.stop [] :: (tagsOf textStop depth r).1,
        ps ++ (tagsOf textStop depth r).2) := by
  rw [tagsOf, read]

theorem tagsOf_block {o c : Token} {b : List Statement} (shallow : depth < maxDepth)
    (read : Head.read? (first :: words) = some (h, ps)) :
    tagsOf textStop depth (.block (first :: words) o b (some c) :: r) =
      (h.toTag first.start c.stop (tagsOf textStop (depth + 1) b).1 ::
          (tagsOf textStop depth r).1,
        ps ++ (tagsOf textStop (depth + 1) b).2 ++ (tagsOf textStop depth r).2) := by
  rw [tagsOf, read]
  simp [shallow, unclosed]

/-- Statements are read one after the other. -/
theorem tagsOf_append (textStop depth : Nat) (a b : List Statement) :
    tagsOf textStop depth (a ++ b) =
      ((tagsOf textStop depth a).1 ++ (tagsOf textStop depth b).1,
        (tagsOf textStop depth a).2 ++ (tagsOf textStop depth b).2) := by
  induction a with
  | nil => simp [tagsOf]
  | cons s a ih =>
      rw [List.cons_append]
      cases s with
      | separator t => rw [tagsOf, tagsOf, ih]
      | stray t => simp [tagsOf, ih]
      | line ws =>
          cases ws with
          | nil => simp [tagsOf, ih]
          | cons first ws => cases read : Head.read? (first :: ws) <;> simp [tagsOf, ih, read]
      | block ws o body c =>
          cases ws with
          | nil => simp [tagsOf, ih]
          | cons first ws =>
              cases read : Head.read? (first :: ws) with
              | none => simp [tagsOf, ih, read]
              | some p => by_cases shallow : depth < maxDepth <;> simp [tagsOf, ih, read, shallow]

/-- What a line of words gives. -/
theorem tagsOf_line_cases (textStop depth : Nat) (ws : List Token) :
    tagsOf textStop depth [.line ws] = ([], []) ∨
    (∃ first ∈ ws, tagsOf textStop depth [.line ws] = ([], [⟨first.span, .expectedTagName⟩])) ∨
    ∃ first words h ps, ws = first :: words ∧ Head.read? (first :: words) = some (h, ps) ∧
      tagsOf textStop depth [.line ws] = ([h.toTag first.start h.stop []], ps) := by
  cases ws with
  | nil => exact .inl (by simp [tagsOf])
  | cons first words =>
      cases read : Head.read? (first :: words) with
      | none => exact .inr (.inl ⟨first, List.mem_cons_self, by simp [tagsOf, read]⟩)
      | some p => exact .inr (.inr ⟨first, words, p.1, p.2, rfl, read, by simp [tagsOf, read]⟩)

/-- What a block gives: nothing without a name in front of it, and otherwise a tag, with
the tags inside of it unless it is too deep. -/
theorem tagsOf_block_cases (textStop depth : Nat) (ws : List Token) (o : Token)
    (b : List Statement) (c : Option Token) :
    (∃ first ∈ ws ++ [o], tagsOf textStop depth [.block ws o b c] =
      ([], ⟨first.span, .expectedTagName⟩ :: unclosed o c)) ∨
    ∃ first words h ps, ws = first :: words ∧ Head.read? (first :: words) = some (h, ps) ∧
      (tagsOf textStop depth [.block ws o b c] =
        ([h.toTag first.start ((c.map Token.stop).getD (max o.stop textStop))
            (tagsOf textStop (depth + 1) b).1],
          ps ++ (tagsOf textStop (depth + 1) b).2 ++ unclosed o c) ∨
      tagsOf textStop depth [.block ws o b c] =
        ([h.toTag first.start ((c.map Token.stop).getD o.stop) []],
          ps ++ ⟨o.span, .nestingTooDeep⟩ :: unclosed o c)) := by
  cases ws with
  | nil => exact .inl ⟨o, by simp, by simp [tagsOf]⟩
  | cons first words =>
      cases read : Head.read? (first :: words) with
      | none => exact .inl ⟨first, by simp, by simp [tagsOf, read]⟩
      | some p =>
          refine .inr ⟨first, words, p.1, p.2, rfl, read, ?_⟩
          by_cases shallow : depth < maxDepth
          · exact .inl (by simp [tagsOf, read, shallow])
          · exact .inr (by simp [tagsOf, read, shallow])

theorem tagsOf_cons_append (textStop depth : Nat) (s : Statement) (r : List Statement) :
    tagsOf textStop depth (s :: r) =
      ((tagsOf textStop depth [s]).1 ++ (tagsOf textStop depth r).1,
        (tagsOf textStop depth [s]).2 ++ (tagsOf textStop depth r).2) :=
  tagsOf_append textStop depth [s] r

end Tags

namespace Tag

theorem descendants_eq (t : Tag) : t.descendants = preorder t.children := by
  cases t
  rw [descendants]

theorem preorder_cons (t : Tag) (ts : List Tag) :
    preorder (t :: ts) = t :: (preorder t.children ++ preorder ts) := by
  rw [preorder, descendants_eq]

theorem preorder_append (ts us : List Tag) : preorder (ts ++ us) = preorder ts ++ preorder us := by
  induction ts with
  | nil => simp [preorder]
  | cons t ts ih => simp [preorder_cons, ih]

end Tag

/-- A block at a level where it may be opened needs one level of the depth. -/
theorem maxDepth_sub {depth : Nat} (shallow : depth < maxDepth) :
    maxDepth - depth = maxDepth - (depth + 1) + 1 := by
  omega

/-- The tags of statements of the grammar. -/
inductive Statement.Reads : List Statement → List Tag → Prop where
  | nil : Reads [] []
  | separator {t : Token} {r : List Statement} {tags : List Tag} :
      t.IsSeparator → Reads r tags → Reads (separator t :: r) tags
  | line {first : Token} {words : List Token} {h : Head} {ps : List Problem} {r : List Statement}
      {tags : List Tag} :
      Phrase (first :: words) → Separated r → Head.read? (first :: words) = some (h, ps) →
      Reads r tags → Reads (line (first :: words) :: r) (h.toTag first.start h.stop [] :: tags)
  | block {first : Token} {words : List Token} {h : Head} {ps : List Problem} {o c : Token}
      {b r : List Statement} {children tags : List Tag} :
      Phrase (first :: words) → Head.read? (first :: words) = some (h, ps) →
      o.kind = .leftBrace → c.kind = .rightBrace → Reads b children → Reads r tags →
      Reads (block (first :: words) o b (some c) :: r)
        (h.toTag first.start c.stop children :: tags)

/-- What follows a tag without a block. -/
theorem Statement.Reads.eq_nil_or_separator {ss : List Statement} {tags : List Tag}
    (reads : Reads ss tags) (separated : Separated ss) :
    ss = [] ∨ ∃ t r, ss = .separator t :: r ∧ t.IsSeparator := by
  cases reads with
  | nil => exact .inl rfl
  | separator isSeparator _ => exact .inr ⟨_, _, rfl, isSeparator⟩
  | line _ _ _ _ => exact separated.elim
  | block _ _ _ _ _ _ => exact separated.elim

theorem Statement.Clean.reads {levels depth : Nat} {ss : List Statement} (clean : Clean levels ss)
    (remaining : levels = maxDepth - depth) (textStop : Nat) :
    Reads ss (tagsOf textStop depth ss).1 := by
  induction clean generalizing depth with
  | nil => simpa [tagsOf] using .nil
  | separator isSeparator _ ih =>
      rw [tagsOf]
      exact .separator isSeparator (ih remaining)
  | @line levels ws r phrase separated _ ih =>
      obtain ⟨first, words, rfl⟩ := List.exists_cons_of_ne_nil phrase.ne_nil
      obtain ⟨⟨h, ps⟩, read, -⟩ := Head.read?_of_phrase phrase
      rw [tagsOf_line read]
      exact .line phrase separated read (ih remaining)
  | @block levels ws o c b r phrase opening _ closing _ ihBody ihRest =>
      obtain ⟨first, words, rfl⟩ := List.exists_cons_of_ne_nil phrase.ne_nil
      obtain ⟨⟨h, ps⟩, read, -⟩ := Head.read?_of_phrase phrase
      have shallow : depth < maxDepth := by omega
      rw [tagsOf_block shallow read]
      exact .block phrase read opening closing (ihBody (by omega)) (ihRest remaining)

/-- **Statements are read without an error exactly if they form a document.** -/
theorem errorFree_tagsOf_iff {ss : List Statement} (grouped : Statement.Grouped ss)
    (known : ∀ t ∈ Statement.tokensOfList ss, t.kind ≠ .unknown) (textStop depth : Nat) :
    ErrorFree (tagsOf textStop depth ss).2 ↔ Statement.Clean (maxDepth - depth) ss := by
  induction grouped generalizing depth with
  | nil => simpa [tagsOf] using Statement.Clean.nil
  | separator isSeparator _ ih =>
      rw [tagsOf, ih (fun t member => known t (List.mem_cons_of_mem _ member)),
        Statement.clean_separator_iff, and_iff_right isSeparator]
  | stray _ _ _ => exact iff_of_false (by simp [tagsOf, Cause.severity]) Statement.not_clean_stray
  | @line ws r nonempty words separated _ ih =>
      simp only [Statement.tokensOfList, Statement.tokens, List.mem_append] at known
      have ih := ih (fun t member => known t (.inr member)) depth
      have phrase := Head.phrase_iff fun w member => known w (.inl member)
      obtain ⟨first, words', rfl⟩ := List.exists_cons_of_ne_nil nonempty
      rw [Statement.clean_line_iff, phrase]
      cases read : Head.read? (first :: words') with
      | none => simp [tagsOf, read, Cause.severity]
      | some p =>
          obtain ⟨h, ps⟩ := p
          simp [tagsOf_line read, ih, separated]
  | @block ws o b r c words opening _ closing _ ihBody ihRest =>
      simp only [Statement.tokensOfList, Statement.tokens, List.mem_append, List.mem_cons] at known
      have ihBody := ihBody (fun t member => known t (.inl (.inr (.inr (.inl member)))))
      have ihRest := ihRest (fun t member => known t (.inr member)) depth
      have phrase := Head.phrase_iff fun w member => known w (.inl (.inl member))
      rw [Statement.clean_block_iff, phrase]
      cases ws with
      | nil => simp [tagsOf, Head.read?, Head.ofWords?, Cause.severity]
      | cons first words' =>
          cases read : Head.read? (first :: words') with
          | none => simp [tagsOf, read, Cause.severity]
          | some p =>
              obtain ⟨h, ps⟩ := p
              by_cases shallow : depth < maxDepth
              · cases c with
                | none => simp [tagsOf, read, shallow, unclosed, Cause.severity]
                | some c =>
                    rw [tagsOf_block shallow read]
                    simp [ihBody, ihRest, opening, closing c rfl, maxDepth_sub shallow]
              -- No level is left, and the block is reported.
              · have full := Nat.sub_eq_zero_of_le (Nat.not_lt.1 shallow)
                simp [tagsOf, read, shallow, Cause.severity, full]

/-! ## Documents without errors -/

/-- The problems that the scanner finds are errors. -/
theorem Piece.severity_of_problem? {start : Nat} {p : Piece} {problem : Problem}
    (found : p.problem? start = some problem) : problem.cause.severity = .error := by
  unfold Piece.problem? at found
  split at found
  case h_3 =>
    split at found
    · cases found
    · cases found
      rfl
  case h_4 =>
    obtain ⟨c, -, rfl⟩ := Option.map_eq_some_iff.1 found
    rfl
  case h_7 => cases found
  all_goals
    cases found
    rfl

theorem Piece.severity_of_mem_problems {start : Nat} {ps : List Piece} {problem : Problem}
    (member : problem ∈ Piece.problems start ps) : problem.cause.severity = .error := by
  induction ps generalizing start with
  | nil => simp [Piece.problems] at member
  | cons p ps ih =>
      rw [Piece.problems, List.mem_append, Option.mem_toList] at member
      rcases member with found | member
      · exact severity_of_problem? found
      · exact ih member

/-- Where the scanner finds no problem, no token is unknown. -/
theorem Token.kind_ne_unknown {start : Nat} {gap : List Char} {ps : List Piece}
    (nonempty : ∀ p ∈ ps, p.text ≠ []) (lexes : Piece.problems start ps = []) :
    ∀ t ∈ Token.ofPieces start gap ps, t.kind ≠ .unknown := by
  intro t member
  obtain ⟨p, found, kind, -⟩ := Token.exists_piece_of_mem_ofPieces member
  clear member
  induction ps generalizing start with
  | nil => simp at found
  | cons q qs ih =>
      rw [Piece.problems, List.append_eq_nil_iff] at lexes
      rcases List.mem_cons.1 found with rfl | found
      · intro unknown
        obtain ⟨c, s, text⟩ := List.exists_cons_of_ne_nil (nonempty _ List.mem_cons_self)
        simp [Piece.problem?, kind, unknown, text] at lexes
      · exact ih (fun p member => nonempty p (List.mem_cons_of_mem _ member)) lexes.2 found

theorem Lexing.kind_ne_unknown {text : List Char} (lexes : (Lexing.ofText text).problems = []) :
    ∀ t ∈ (Lexing.ofText text).tokens, t.kind ≠ .unknown :=
  Token.kind_ne_unknown (fun _ => Piece.text_ne_nil_of_mem_split) lexes

/-- The statements of a text. -/
def Statement.ofText (text : List Char) : List Statement :=
  ofTokens (Lexing.ofText text).tokens

/-- The place behind the last token of a text. -/
def textStop (text : List Char) : Nat :=
  ((Lexing.ofText text).tokens.getLast?.map Token.stop).getD 0

/-- What is read from the statements of a text. -/
def tagsOfText (text : List Char) : List Tag × List Problem :=
  tagsOf (textStop text) 0 (Statement.ofText text)

@[simp] theorem errorFree_sort {ps : List Problem} :
    ErrorFree (Problem.sort ps) ↔ ErrorFree ps := by
  simp [ErrorFree, Problem.sort, List.mem_mergeSort]

theorem Document.ofText_eq (text : List Char) :
    Document.ofText text = ⟨Tag.root (tagsOfText text).1,
      Problem.sort ((Lexing.ofText text).problems ++ (tagsOfText text).2)⟩ :=
  rfl

/-- A document is free of errors if neither the scanner nor the reader of the
statements finds one. -/
theorem Document.errorFree_iff (text : List Char) :
    ErrorFree (Document.ofText text).problems ↔
      (Lexing.ofText text).problems = [] ∧
        Statement.Clean maxDepth (Statement.ofText text) := by
  have scanner : ErrorFree (Lexing.ofText text).problems ↔ (Lexing.ofText text).problems = [] := by
    constructor
    · intro free
      rw [List.eq_nil_iff_forall_not_mem]
      intro p member
      exact free p member (Piece.severity_of_mem_problems member)
    · intro none
      simp [none]
  simp only [Document.ofText, errorFree_sort, errorFree_append, scanner]
  apply and_congr_right
  intro lexes
  apply errorFree_tagsOf_iff (Statement.grouped_ofTokens _)
  rw [Statement.tokens_ofTokens]
  exact Lexing.kind_ne_unknown lexes

/-- The tags of a document without errors. -/
theorem Document.reads {text : List Char} (errorFree : ErrorFree (Document.ofText text).problems) :
    Statement.Reads (Statement.ofText text) (Document.ofText text).root.children :=
  ((Document.errorFree_iff text).1 errorFree).2.reads rfl _

end PackageRecipe.Sdl
