import PackageRecipe.Sdl.Token
import PackageRecipe.Proofs.Text.Pattern

/-!
# Where pieces end

`Piece.first` decides what the piece at the head of a text is and how far it
reaches.  This file says once what it can decide, and from that how a piece
depends on the text behind it.

## Main Definitions

* `TokenKind.mark?` — the character of a token that is one fixed character
* `Piece.Begins` — the relation that `Piece.first` computes, one constructor for
  each way a piece can begin, with the guard that selects it
* `Piece.Local` — a scan that never looks behind its own end

## Design Notes

Every statement about a single piece below is a case analysis on `Begins`, so a
change of `Piece.first` touches `Begins`, `begins_first` and `Begins.first_eq`
only.  The two main statements are about a text `x` that was cut off from a
longer text `x ++ y`: a piece that ends inside `x` is found in `x` as well
(`Begins.inside`), and what is left of a token that does not begins with a token
that ends no statement (`Begins.cut_token`).  `split_append` carries both over to
all pieces of the text.
-/

namespace PackageRecipe.Sdl

open PackageRecipe.Text

/-- The character that tokens of a kind consist of, for the kinds that are
spelled by one character of their own. -/
def TokenKind.mark? : TokenKind → Option Char
  | .newline => some '\n'
  | .semicolon => some ';'
  | .colon => some ':'
  | .equals => some '='
  | .leftBrace => some '{'
  | .rightBrace => some '}'
  | _ => none

namespace Piece

/-! ## Characters that begin a piece -/

/-- A numeral begins with a digit, or with a minus sign or a point before one. -/
def StartsNumeral (c : Char) (s : List Char) : Prop :=
  c.isDigit ∨ (c = '-' ∨ c = '.') ∧ digitFollows s

/-- A line comment begins with a hash, two slashes or two minus signs. -/
def StartsLineComment (c : Char) (s : List Char) : Prop :=
  c = '#' ∨ (c = '/' ∨ c = '-') ∧ s.head? = some c

theorem toNat_lt_of_isDigit {c : Char} (digit : c.isDigit) : c.toNat < 0x80 := by
  simp only [Char.isDigit, Bool.and_eq_true, decide_eq_true_eq, UInt32.le_iff_toNat_le,
    ge_iff_le] at digit
  have code : c.toNat = c.val.toNat := rfl
  have nine : '9'.val.toNat = 57 := rfl
  omega

/-- No digit begins an identifier. -/
theorem isDigit_eq_false_of_isIdentifierStart {c : Char} (start : isIdentifierStart c) :
    c.isDigit = false := by
  rw [Bool.eq_false_iff]
  intro digit
  simp only [isIdentifierStart, isLetter, toNat_lt_of_isDigit digit, if_true, Bool.or_eq_true,
    beq_iff_eq] at start
  rcases start with letter | rfl
  · change (decide ('A'.val ≤ c.val ∧ c.val ≤ 'Z'.val) ||
      (decide ('a'.val ≤ c.val) && decide (c.val ≤ 'z'.val))) = true at letter
    simp only [Char.isDigit, UInt32.le_iff_toNat_le, Bool.or_eq_true, Bool.and_eq_true,
      decide_eq_true_eq, ge_iff_le, Char.reduceVal, UInt32.reduceToNat] at letter digit
    omega
  · simp at digit

/-- A character that begins no piece but an unknown token. -/
structure Stray (c : Char) (s : List Char) : Prop where
  noMark : ∀ kind : TokenKind, kind.mark? ≠ some c
  noBlank : isLineBlank c = false
  noDelimiter : c ∉ ['\\', '"', '\x60', '[']
  noLineComment : ¬ StartsLineComment c s
  noBlockComment : ¬ (c = '/' ∧ s.head? = some '*')
  noNumeral : ¬ StartsNumeral c s
  noIdentifier : isIdentifierStart c = false

/-! ## What a piece can be -/

/-- The text `c :: s` begins with a piece of a kind that takes a number of
characters of `s`. -/
inductive Begins (c : Char) (s : List Char) : PieceKind → Nat → Prop where
  | mark {kind : TokenKind} : kind.mark? = some c → Begins c s (.token kind) 0
  | blank : isLineBlank c → Begins c s .blank 0
  | continuation : c = '\\' →
      Begins c s (.continuation (continuationBody s).2) (continuationBody s).1
  | lineComment : StartsLineComment c s → Begins c s .lineComment (run (· != '\n') s)
  | blockComment : c = '/' → s.head? = some '*' →
      Begins c s (.blockComment (blockBody (s.drop 1)).2) ((blockBody (s.drop 1)).1 + 1)
  | quoted : c = '"' → Begins c s (.token (.string false (quoted s).2)) (quoted s).1
  | raw : c = '\x60' →
      Begins c s (.token (.string true (upTo '\x60' s).2)) (upTo '\x60' s).1
  | binary : c = '[' → Begins c s (.token (.binary (upTo ']' s).2)) (upTo ']' s).1
  | numeral : StartsNumeral c s → Begins c s (.token (numeral c s).1) (numeral c s).2
  | identifier : isIdentifierStart c →
      Begins c s (.token .identifier) (run isIdentifierChar s)
  | unknown : Stray c s → Begins c s (.token .unknown) 0

/-- `Piece.first` chooses one of the ways in which a piece can begin. -/
theorem begins_first (c : Char) (s : List Char) : Begins c s (first c s).1 (first c s).2 := by
  unfold first
  split
  case h_15 c' noNewline noSpace noTab noReturn noBackslash noHash noQuote noBackQuote noBracket
      noLeft noRight noSemicolon noColon noEquals =>
    -- Behind the fixed characters the guards are tried in order.
    split
    · rename_i slashes
      simp only [Bool.and_eq_true, beq_iff_eq] at slashes
      exact .lineComment (.inr ⟨.inl slashes.1, by rw [slashes.2, slashes.1]⟩)
    · rename_i noSlashes
      split
      · rename_i opened
        simp only [Bool.and_eq_true, beq_iff_eq] at opened
        exact .blockComment opened.1 opened.2
      · rename_i notOpened
        split
        · rename_i minuses
          simp only [Bool.and_eq_true, beq_iff_eq] at minuses
          exact .lineComment (.inr ⟨.inr minuses.1, by rw [minuses.2, minuses.1]⟩)
        · rename_i noMinuses
          split
          · rename_i digit
            exact .numeral (by
              simpa [StartsNumeral, Bool.or_eq_true, Bool.and_eq_true] using digit)
          · rename_i noDigit
            split
            · rename_i letter
              exact .identifier letter
            · rename_i noLetter
              refine .unknown ⟨?_, ?_, ?_, ?_, ?_, ?_, by simpa using noLetter⟩
              · intro kind marked
                cases kind <;> simp_all [TokenKind.mark?, eq_comm (b := c)]
              · simp_all [isLineBlank]
              · simp_all
              · rintro (rfl | ⟨rfl | rfl, follows⟩) <;> simp_all
              · rintro ⟨rfl, follows⟩
                simp_all
              · simpa [StartsNumeral, Bool.or_eq_true, Bool.and_eq_true] using noDigit
  case h_1 | h_10 | h_11 | h_12 | h_13 | h_14 => exact .mark rfl
  case h_2 | h_3 | h_4 => exact .blank (by decide)
  case h_5 => exact .continuation rfl
  case h_6 => exact .lineComment (.inl rfl)
  case h_7 => exact .quoted rfl
  case h_8 => exact .raw rfl
  case h_9 => exact .binary rfl

/-- Only one way of beginning a piece is open to a text. -/
theorem Begins.first_eq {c : Char} {s : List Char} {kind : PieceKind} {n : Nat}
    (begun : Begins c s kind n) : first c s = (kind, n) := by
  cases begun with
  | @mark kind marked =>
      cases kind <;> simp only [TokenKind.mark?, Option.some.injEq, reduceCtorEq] at marked <;>
        subst marked <;> rfl
  | blank blank =>
      simp only [isLineBlank, Bool.or_eq_true, beq_iff_eq] at blank
      rcases blank with (rfl | rfl) | rfl <;> rfl
  | continuation backslash | quoted quote | raw quote | binary bracket =>
      subst c
      rfl
  | lineComment starts =>
      rcases starts with rfl | ⟨rfl | rfl, follows⟩
      · rfl
      · simp [first, follows]
      · simp [first, follows]
  | blockComment slash star =>
      subst slash
      simp [first, star]
  | numeral starts =>
      rcases starts with digit | ⟨rfl | rfl, digit⟩
      · unfold first
        split
        case h_15 =>
          have noSlash : c ≠ '/' := by rintro rfl; simp at digit
          have noMinus : c ≠ '-' := by rintro rfl; simp at digit
          simp [noSlash, noMinus, digit]
        all_goals simp at digit
      · have noMinus : s.head? ≠ some '-' := by
          rintro minus
          simp [digitFollows, minus] at digit
        simp [first, noMinus, digit]
      · simp [first, digit]
  | identifier start =>
      have noDigit := isDigit_eq_false_of_isIdentifierStart start
      unfold first
      split
      case h_15 =>
        have noSlash : c ≠ '/' := by rintro rfl; exact absurd start (by decide)
        have noMinus : c ≠ '-' := by rintro rfl; exact absurd start (by decide)
        have noPoint : c ≠ '.' := by rintro rfl; exact absurd start (by decide)
        simp [noSlash, noMinus, noPoint, noDigit, start]
      all_goals exact absurd start (by decide)
  | unknown stray =>
      obtain ⟨noMark, noBlank, noDelimiter, noLine, noBlock, noNumeral, noIdentifier⟩ := stray
      simp only [StartsNumeral, not_or, not_and, Bool.not_eq_true] at noNumeral
      unfold first
      split
      case h_15 =>
        rw [if_neg, if_neg, if_neg, if_neg, if_neg]
        · simp [noIdentifier]
        · simpa using noNumeral
        · rintro minuses
          simp only [Bool.and_eq_true, beq_iff_eq] at minuses
          exact noLine (.inr ⟨.inr minuses.1, by rw [minuses.2, minuses.1]⟩)
        · simpa using noBlock
        · rintro slashes
          simp only [Bool.and_eq_true, beq_iff_eq] at slashes
          exact noLine (.inr ⟨.inl slashes.1, by rw [slashes.2, slashes.1]⟩)
      case h_1 => exact absurd rfl (noMark .newline)
      case h_10 => exact absurd rfl (noMark .leftBrace)
      case h_11 => exact absurd rfl (noMark .rightBrace)
      case h_12 => exact absurd rfl (noMark .semicolon)
      case h_13 => exact absurd rfl (noMark .colon)
      case h_14 => exact absurd rfl (noMark .equals)
      case h_6 => exact absurd (.inl rfl) noLine
      all_goals simp_all [isLineBlank]

theorem begins_iff {c : Char} {s : List Char} {kind : PieceKind} {n : Nat} :
    Begins c s kind n ↔ first c s = (kind, n) := by
  constructor
  · exact Begins.first_eq
  · intro computed
    have begun := begins_first c s
    rwa [computed] at begun

/-! ## Scans of a text that is cut off -/

/-- A scan reads a text from left to right and looks at nothing behind the place
where it stops.  On a text that was cut off it finds what it found in the whole
one, or it runs up to the cut and finds nothing. -/
structure Local (scan : List Char → Nat × Bool) : Prop where
  inside : ∀ {x y : List Char}, (scan (x ++ y)).1 ≤ x.length → scan x = scan (x ++ y)
  cut : ∀ {x y : List Char}, x.length < (scan (x ++ y)).1 → scan x = (x.length, false)

theorem local_run (p : Char → Bool) : Local fun s => (run p s, false) where
  inside := by
    intro x y inside
    induction x with
    | nil =>
        have nothing : run p y = 0 := by simpa using inside
        rw [List.nil_append, nothing]
        rfl
    | cons c x ih =>
        by_cases holds : p c
        · simp only [run, List.cons_append, List.takeWhile_cons_of_pos holds, List.length_cons,
            Nat.add_le_add_iff_right, Prod.mk.injEq, and_true, Nat.add_right_cancel_iff] at *
          exact ih inside
        · simp [run, List.takeWhile_cons_of_neg holds]
  cut := by
    intro x y cut
    induction x with
    | nil => rfl
    | cons c x ih =>
        by_cases holds : p c
        · simp only [run, List.cons_append, List.takeWhile_cons_of_pos holds, List.length_cons,
            Nat.add_lt_add_iff_right, Prod.mk.injEq, and_true, Nat.add_right_cancel_iff] at *
          exact ih cut
        · simp [run, List.takeWhile_cons_of_neg holds] at cut

theorem local_upTo (close : Char) : Local (upTo close) where
  inside := by
    intro x y inside
    induction x with
    | nil =>
        cases y with
        | nil => rfl
        | cons c y => by_cases closes : c = close <;> simp [upTo, closes] at inside
    | cons c x ih =>
        by_cases closes : c = close
        · simp [upTo, closes]
        · simp only [List.cons_append, upTo, closes, if_false, List.length_cons,
            Nat.add_le_add_iff_right] at inside ⊢
          rw [ih inside]
  cut := by
    intro x y cut
    induction x with
    | nil => rfl
    | cons c x ih =>
        by_cases closes : c = close
        · simp [upTo, closes] at cut
        · simp only [List.cons_append, upTo, closes, if_false, List.length_cons,
            Nat.add_lt_add_iff_right] at cut ⊢
          rw [ih cut]

/-- The first two characters of a comment body decide whether it is closed. -/
theorem blockBody_cons {c : Char} {s : List Char} (opened : ¬ (c = '*' ∧ s.head? = some '/')) :
    blockBody (c :: s) = ((blockBody s).1 + 1, (blockBody s).2) := by
  rw [blockBody.eq_def]
  split
  · contradiction
  · simp_all
  · simp_all

theorem local_blockBody : Local blockBody where
  inside := by
    intro x y inside
    induction x with
    | nil =>
        cases y with
        | nil => rfl
        | cons c y =>
            exfalso
            by_cases closes : c = '*' ∧ y.head? = some '/'
            · obtain ⟨rfl, slash⟩ := closes
              cases y <;> simp_all [blockBody]
            · simp [blockBody_cons closes] at inside
    | cons c x ih =>
        by_cases closes : c = '*' ∧ (x ++ y).head? = some '/'
        · obtain ⟨rfl, slash⟩ := closes
          cases x with
          | nil => cases y <;> simp_all [blockBody]
          | cons d x => simp_all [blockBody]
        · have stillOpen : ¬ (c = '*' ∧ x.head? = some '/') := by
            rintro ⟨rfl, slash⟩
            exact closes ⟨rfl, by simp [List.head?_append, slash]⟩
          rw [List.cons_append, blockBody_cons closes] at inside ⊢
          simp only [List.length_cons, Nat.add_le_add_iff_right] at inside
          rw [blockBody_cons stillOpen, ih inside]
  cut := by
    intro x y cut
    induction x with
    | nil => rfl
    | cons c x ih =>
        by_cases closes : c = '*' ∧ (x ++ y).head? = some '/'
        · obtain ⟨rfl, slash⟩ := closes
          cases x with
          | nil => rfl
          | cons d x =>
              obtain rfl : d = '/' := by simpa using slash
              simp only [List.cons_append, blockBody, List.length_cons] at cut
              omega
        · have stillOpen : ¬ (c = '*' ∧ x.head? = some '/') := by
            rintro ⟨rfl, slash⟩
            exact closes ⟨rfl, by simp [List.head?_append, slash]⟩
          rw [List.cons_append, blockBody_cons closes] at cut
          simp only [List.length_cons, Nat.add_lt_add_iff_right] at cut
          rw [blockBody_cons stillOpen, ih cut]
          rfl

/-- A backslash takes the character behind it along. -/
theorem quoted_escape {c : Char} (noReturn : c ≠ '\r') (s : List Char) :
    quoted ('\\' :: c :: s) = ((quoted s).1 + 2, (quoted s).2) := by
  rw [quoted.eq_def]
  split <;> simp_all
  rename_i noEscape same
  exact absurd same.2.symm (noEscape _ _ same.1.symm)

theorem quoted_plain {c : Char} (plain : c ∉ ['\n', '"', '\\']) (s : List Char) :
    quoted (c :: s) = ((quoted s).1 + 1, (quoted s).2) := by
  rw [quoted.eq_def]
  split <;> simp_all

/-- Induction along the body of a double-quoted string, with a case for each way
in which `quoted` goes on or stops. -/
theorem quoted_induction {motive : List Char → Prop} (empty : motive [])
    (feed : ∀ r, motive ('\n' :: r)) (quote : ∀ r, motive ('"' :: r))
    (lone : motive ['\\']) (loneReturn : motive ['\\', '\r'])
    (pair : ∀ d r, motive r → motive ('\\' :: '\r' :: d :: r))
    (escape : ∀ d r, d ≠ '\r' → motive r → motive ('\\' :: d :: r))
    (plain : ∀ d r, d ∉ ['\n', '"', '\\'] → motive r → motive (d :: r)) (s : List Char) :
    motive s := by
  induction s using quoted.induct with
  | case1 => exact empty
  | case2 r => exact feed r
  | case3 r => exact quote r
  | case4 => exact lone
  | case5 => exact loneReturn
  | case6 d r n closed computed ih => exact pair d r ih
  | case7 d r noEnd noPair n closed computed ih =>
      refine escape d r ?_ ih
      rintro rfl
      cases r with
      | nil => exact noEnd rfl rfl
      | cons e r => exact noPair e r rfl rfl
  | case8 d r noFeed noQuote noEnd noReturn noPair noEscape n closed computed ih =>
      refine plain d r ?_ ih
      cases r <;> simp_all

theorem local_quoted : Local quoted where
  inside := by
    intro x y inside
    induction x using quoted_induction with
    | empty =>
        rw [List.nil_append] at inside ⊢
        -- Only at its end or at a line feed does the scan take nothing along.
        induction y using quoted_induction with
        | empty | feed => rfl
        | quote | lone | loneReturn | pair => simp [quoted] at inside
        | escape d r noReturn => simp [quoted_escape noReturn] at inside
        | plain d r plain => simp [quoted_plain plain] at inside
    | feed | quote => rfl
    | lone =>
        cases y with
        | nil => rfl
        | cons c y =>
            by_cases isReturn : c = '\r'
            · cases y <;> simp [isReturn, quoted] at inside
            · simp [quoted_escape isReturn] at inside
    | loneReturn => cases y <;> simp [quoted] at inside ⊢
    | pair d r ih =>
        simp only [List.cons_append, quoted, List.length_cons, Nat.add_le_add_iff_right] at *
        rw [ih inside]
    | escape d r noReturn ih =>
        simp only [List.cons_append, quoted_escape noReturn, List.length_cons,
          Nat.add_le_add_iff_right] at *
        rw [ih inside]
    | plain d r plain ih =>
        simp only [List.cons_append, quoted_plain plain, List.length_cons,
          Nat.add_le_add_iff_right] at *
        rw [ih inside]
  cut := by
    intro x y cut
    induction x using quoted_induction with
    | empty | lone | loneReturn => rfl
    | feed | quote => simp [quoted] at cut
    | pair d r ih =>
        simp only [List.cons_append, quoted, List.length_cons, Nat.add_lt_add_iff_right] at *
        rw [ih cut]
    | escape d r noReturn ih =>
        simp only [List.cons_append, quoted_escape noReturn, List.length_cons,
          Nat.add_lt_add_iff_right] at *
        rw [ih cut]
    | plain d r plain ih =>
        simp only [List.cons_append, quoted_plain plain, List.length_cons,
          Nat.add_lt_add_iff_right] at *
        rw [ih cut]

theorem run_inside {p : Char → Bool} {x y : List Char} (inside : run p (x ++ y) ≤ x.length) :
    run p x = run p (x ++ y) :=
  congrArg Prod.fst ((local_run p).inside inside)

theorem run_cut {p : Char → Bool} {x y : List Char} (cut : x.length < run p (x ++ y)) :
    run p x = x.length :=
  congrArg Prod.fst ((local_run p).cut cut)

theorem run_le_length (p : Char → Bool) (s : List Char) : run p s ≤ s.length :=
  (List.takeWhile_prefix p).length_le

/-- A run of characters, and what stands behind it. -/
theorem run_cases (p : Char → Bool) (s : List Char) :
    ∃ inside rest, s = inside ++ rest ∧ run p s = inside.length ∧ (∀ c ∈ inside, p c) ∧
      ∀ c ∈ rest.head?, p c = false := by
  refine ⟨s.takeWhile p, s.dropWhile p, List.takeWhile_append_dropWhile.symm, rfl,
    List.all_eq_true.1 List.all_takeWhile, ?_⟩
  intro c head
  have := List.head?_dropWhile_not p s
  rw [Option.mem_def.1 head] at this
  simpa using this

/-- A run ends where a character does not belong to it. -/
theorem run_append {p : Char → Bool} {s next : List Char} (all : ∀ c ∈ s, p c)
    (ends : ∀ c ∈ next.head?, p c = false) : run p (s ++ next) = s.length := by
  have none : next.takeWhile p = [] := by
    cases next with
    | nil => rfl
    | cons c next => rw [List.takeWhile_cons_of_neg (by simp [ends c rfl])]
  rw [run, List.takeWhile_append_of_pos all, none, List.append_nil]

/-- A backslash reaches over its blanks, and over a line feed behind them. -/
theorem continuationBody_cases (s : List Char) :
    ∃ blanks rest, (∀ c ∈ blanks, isLineBlank c) ∧ s = blanks ++ rest ∧
      (rest = [] ∧ continuationBody s = (blanks.length, true) ∨
      (∃ r, rest = '\n' :: r) ∧ continuationBody s = (blanks.length + 1, true) ∨
      continuationBody s = (blanks.length, false)) := by
  obtain ⟨blanks, rest, spelled, reach, all, -⟩ := run_cases isLineBlank s
  refine ⟨blanks, rest, all, spelled, ?_⟩
  have behind : s.drop blanks.length = rest := by
    rw [spelled, List.drop_left]
  unfold continuationBody
  simp only [reach, behind]
  cases rest with
  | nil => exact .inl ⟨rfl, rfl⟩
  | cons d r =>
      by_cases feed : d = '\n'
      · exact .inr (.inl ⟨⟨r, by rw [feed]⟩, by simp [feed]⟩)
      · exact .inr (.inr (by simp [feed]))

/-- A line continuation reaches over its blanks, and over a line feed behind them. -/
theorem continuationBody_reach (s : List Char) :
    run isLineBlank s ≤ (continuationBody s).1 ∧
      (continuationBody s).1 ≤ run isLineBlank s + 1 := by
  unfold continuationBody
  simp only
  split
  · simp
  · split <;> simp

/-- A line continuation looks at the character behind its blanks.  So the scan
of a text that is cut off there cannot tell whether the line would have gone on;
this is the only way in which it differs. -/
theorem continuationBody_inside {x y : List Char}
    (inside : (continuationBody (x ++ y)).1 ≤ x.length) :
    continuationBody x = continuationBody (x ++ y) ∨
      continuationBody x = (x.length, true) ∧ continuationBody (x ++ y) = (x.length, false) := by
  have blanks : run isLineBlank (x ++ y) ≤ x.length :=
    Nat.le_trans (continuationBody_reach _).1 inside
  have same := run_inside blanks
  unfold continuationBody at inside ⊢
  simp only [← same, List.drop_append_of_le_length (same ▸ blanks)] at inside ⊢
  cases rest : x.drop (run isLineBlank x) with
  | cons c r => exact .inl rfl
  | nil =>
      have whole : run isLineBlank x = x.length :=
        Nat.le_antisymm (run_le_length _ _) (List.drop_eq_nil_iff.1 rest)
      cases y with
      | nil => exact .inl rfl
      | cons c r =>
          simp only [List.nil_append, whole, List.drop_length] at inside ⊢
          by_cases feed : c = '\n'
          · simp only [feed, if_true] at inside
            omega
          · simp [feed]

theorem continuationBody_cut {x y : List Char}
    (cut : x.length < (continuationBody (x ++ y)).1) :
    continuationBody x = (x.length, true) := by
  have reach := continuationBody_reach (x ++ y)
  have whole : run isLineBlank x = x.length := by
    by_cases blanks : run isLineBlank (x ++ y) ≤ x.length
    · have same := run_inside blanks
      omega
    · exact run_cut (Nat.lt_of_not_le blanks)
  simp [continuationBody, whole]

/-! ### Numerals -/

/-- The kinds of tokens that `numeral` finds. -/
theorem numeral_kind (c : Char) (s : List Char) :
    (numeral c s).1 = .date ∨ (numeral c s).1 = .duration ∨ (numeral c s).1 = .number := by
  unfold numeral
  simp only
  split
  · exact .inl rfl
  · split
    · exact .inr (.inl rfl)
    · exact .inr (.inr rfl)

/-- A numeral reaches over its numeral characters, and only a date further. -/
theorem run_le_numeral (c : Char) (s : List Char) :
    run Numeral.isNumeralChar s ≤ (numeral c s).2 := by
  unfold numeral
  simp only
  split
  · simp
  · split <;> simp

theorem numeral_inside {c : Char} {x y : List Char}
    (inside : (numeral c (x ++ y)).2 ≤ x.length) : numeral c x = numeral c (x ++ y) := by
  have digits : run Numeral.isNumeralChar (x ++ y) ≤ x.length :=
    Nat.le_trans (run_le_numeral c _) inside
  have same := run_inside digits
  have digits' : run Numeral.isNumeralChar x ≤ x.length := run_le_length _ _
  unfold numeral at inside ⊢
  simp only [← same, List.take_append_of_le_length digits',
    List.drop_append_of_le_length digits'] at inside ⊢
  split
  · rename_i isDate
    simp only [isDate, if_true] at inside
    cases found : Numeral.timeOfDay.longest (x.drop (run Numeral.isNumeralChar x) ++ y) with
    | none => rw [Pattern.longest_append_eq_none found]
    | some n =>
        simp only [found, Option.getD_some] at inside
        rw [Pattern.longest_append found]
        rw [List.length_drop]
        omega
  · rfl

/-- A time of day without the blanks in front of it. -/
def clock : Pattern :=
  .all [Numeral.digit.between 1 1, .char ':', Numeral.digit.between 2 0, Numeral.seconds.opt,
    (Pattern.all [.char '-', (Pattern.one Numeral.isZoneChar).some]).opt]

theorem timeOfDay_eq : Numeral.timeOfDay = .seq (Numeral.oneOf [' ', '\t']).some clock := rfl

/-- The characters of a time of day behind its blanks. -/
theorem clock_within {P : Char → Prop} (digit : ∀ c, isDecimalDigit c → P c)
    (zone : ∀ c, Numeral.isZoneChar c → P c) (fixed : ∀ c ∈ [':', '.', '-'], P c) :
    clock.Within P := by
  have digit' : Numeral.digit.Within P := digit
  have two := digit'.between 2 0
  have oneOrTwo := digit'.between 1 1
  have upToThree := digit'.between 1 2
  simp [clock, Numeral.seconds, Pattern.all, Pattern.opt, Pattern.some, Pattern.char,
    Pattern.Within, two, oneOrTwo, upToThree] at fixed ⊢
  exact ⟨fixed.1, ⟨fixed.1, fixed.2.1⟩, fixed.2.2, zone⟩

/-- The characters of a time of day. -/
theorem timeOfDay_within {P : Char → Prop} (digit : ∀ c, isDecimalDigit c → P c)
    (zone : ∀ c, Numeral.isZoneChar c → P c) (fixed : ∀ c ∈ [' ', '\t', ':', '.', '-'], P c) :
    Numeral.timeOfDay.Within P := by
  have inside := clock_within digit zone fun c member => fixed c (by simp_all)
  simpa [timeOfDay_eq, Numeral.oneOf, Pattern.some, Pattern.Within, inside] using
    And.intro (fixed ' ' (by simp)) (fixed '\t' (by simp))

/-- The characters that make up the tokens behind which a statement ends. -/
def endMarks : List Char := ['\n', ';', '{', '}']

/-- No character of a time of day ends a statement. -/
theorem timeOfDay_within_notMem_endMarks : Numeral.timeOfDay.Within (· ∉ endMarks) := by
  refine timeOfDay_within ?_ ?_ (by simp [endMarks])
  · intro c digit ends
    simp only [endMarks, List.mem_cons, List.not_mem_nil, or_false] at ends
    rcases ends with rfl | rfl | rfl | rfl <;> exact absurd digit (by decide)
  · intro c zone ends
    simp only [endMarks, List.mem_cons, List.not_mem_nil, or_false] at ends
    rcases ends with rfl | rfl | rfl | rfl <;> exact absurd zone (by decide)

/-- What is cut off from a date and its time is a numeral, with some characters
of the time behind it. -/
theorem numeral_cut {c : Char} {x y : List Char} (cut : x.length < (numeral c (x ++ y)).2) :
    (numeral c x).2 ≤ x.length ∧
      ∀ a ∈ x.drop (numeral c x).2, a ∉ endMarks := by
  by_cases digits : run Numeral.isNumeralChar (x ++ y) ≤ x.length
  · have same := run_inside digits
    have digits' : run Numeral.isNumeralChar x ≤ x.length := run_le_length _ _
    unfold numeral at cut ⊢
    simp only [← same, List.take_append_of_le_length digits',
      List.drop_append_of_le_length digits'] at cut ⊢
    split
    · rename_i isDate
      simp only [isDate, if_true] at cut
      cases found : Numeral.timeOfDay.longest (x.drop (run Numeral.isNumeralChar x) ++ y) with
      | none =>
          simp only [found, Option.getD_none] at cut
          omega
      | some n =>
          have matched := Pattern.matches_take_longest found
          simp only [found, Option.getD_some] at cut
          constructor
          · cases shorter : Numeral.timeOfDay.longest (x.drop (run Numeral.isNumeralChar x)) with
            | none => simpa using digits'
            | some k =>
                have := Pattern.longest_le_length shorter
                rw [List.length_drop] at this
                simp only [Option.getD_some]
                omega
          · intro a member
            -- What is left of `x` lies within the match that the whole text has.
            have inRest : a ∈ x.drop (run Numeral.isNumeralChar x) := by
              rw [← List.drop_drop] at member
              exact List.mem_of_mem_drop member
            apply timeOfDay_within_notMem_endMarks.forall_mem matched a
            rw [List.take_append]
            apply List.mem_append_left
            rwa [List.take_of_length_le (by rw [List.length_drop]; omega)]
    · rename_i noDate
      rw [if_neg noDate] at cut
      split at cut <;> simp only at cut <;> omega
  · have whole := run_cut (Nat.lt_of_not_le digits)
    have nothing : (Numeral.timeOfDay.longest []).getD 0 = 0 := by decide
    have reach : (numeral c x).2 = x.length := by
      unfold numeral
      simp only [whole, List.drop_length, nothing]
      split
      · rfl
      · split <;> rfl
    simp [reach]

/-! ## Pieces of a text that is cut off -/

section Cut

variable {c : Char} {x y : List Char} {kind : PieceKind} {n : Nat}

theorem head?_append_eq {a : Char} (head : x.head? = some a) (y : List Char) :
    (x ++ y).head? = some a := by
  simp [List.head?_append, head]

theorem head?_eq_of_append {a : Char} (head : (x ++ y).head? = some a) (nonempty : x ≠ []) :
    x.head? = some a := by
  cases x with
  | nil => exact absurd rfl nonempty
  | cons d x => exact head

theorem StartsNumeral.append (starts : StartsNumeral c x) (y : List Char) :
    StartsNumeral c (x ++ y) := by
  refine starts.imp_right fun ⟨sign, follows⟩ => ⟨sign, ?_⟩
  cases x with
  | nil => simp [digitFollows] at follows
  | cons d x => exact follows

theorem StartsLineComment.append (starts : StartsLineComment c x) (y : List Char) :
    StartsLineComment c (x ++ y) :=
  starts.imp_right fun ⟨sign, follows⟩ => ⟨sign, head?_append_eq follows y⟩

/-- A character that begins nothing before a text begins nothing before a part of it. -/
theorem Stray.of_append (stray : Stray c (x ++ y)) : Stray c x :=
  { stray with
    noLineComment := fun starts => stray.noLineComment (starts.append y)
    noBlockComment := fun ⟨slash, star⟩ => stray.noBlockComment ⟨slash, head?_append_eq star y⟩
    noNumeral := fun starts => stray.noNumeral (starts.append y) }

/-- Of the characters that open a comment or a numeral together with the next
one, none begins a piece on its own. -/
theorem stray_nil {c : Char} (opens : c ∈ ['/', '-', '.']) : Stray c [] := by
  simp only [List.mem_cons, List.not_mem_nil, or_false] at opens
  have noMark : ∀ kind : TokenKind, kind.mark? ≠ some c := by
    rcases opens with rfl | rfl | rfl <;> intro kind <;> cases kind <;>
      simp [TokenKind.mark?]
  rcases opens with rfl | rfl | rfl <;>
    exact ⟨noMark, by decide, by decide, by simp [StartsLineComment], by simp,
      by simp [StartsNumeral, digitFollows], by decide⟩

/-- The sign of a numeral takes at least one digit along. -/
theorem run_pos_of_digitFollows {s : List Char} (follows : digitFollows s) :
    0 < run Numeral.isNumeralChar s := by
  cases s with
  | nil => simp [digitFollows] at follows
  | cons d s =>
      have digit : Numeral.isNumeralChar d := by
        simp_all [digitFollows, Numeral.isNumeralChar, Char.isAlphanum]
      simp [run, digit]

/-- **A piece that ends inside `x` is found in `x`.**  Only a backslash that does
not continue the line is taken for one that does when the text ends behind it. -/
theorem Begins.inside (begun : Begins c (x ++ y) kind n) (inside : n ≤ x.length) :
    Begins c x kind n ∨
      kind = .continuation false ∧ n = x.length ∧ Begins c x (.continuation true) n := by
  cases begun with
  | mark marked => exact .inl (.mark marked)
  | blank blank => exact .inl (.blank blank)
  | continuation backslash =>
      rcases continuationBody_inside inside with same | ⟨shorter, longer⟩
      · exact .inl (same ▸ .continuation backslash)
      · refine .inr ⟨by rw [longer], by rw [longer], ?_⟩
        have begun : Begins c x _ _ := .continuation backslash
        rw [shorter] at begun
        rw [longer]
        exact begun
  | lineComment starts =>
      refine .inl (run_inside inside ▸ .lineComment ?_)
      rcases starts with hash | ⟨sign, follows⟩
      · exact .inl hash
      · refine .inr ⟨sign, head?_eq_of_append follows ?_⟩
        rintro rfl
        -- The second sign belongs to the comment, so `x` holds it.
        cases y with
        | nil => simp at follows
        | cons d y =>
            obtain rfl : d = c := by simpa using follows
            rcases sign with rfl | rfl <;> simp [run] at inside
  | blockComment slash star =>
      have nonempty : x ≠ [] := by
        rintro rfl
        simp at inside
      obtain ⟨d, x, rfl⟩ := List.exists_cons_of_ne_nil nonempty
      simp only [List.cons_append, List.drop_succ_cons, List.drop_zero, List.length_cons,
        Nat.add_le_add_iff_right] at inside ⊢
      rw [← local_blockBody.inside inside]
      exact .inl (.blockComment slash star)
  | quoted quote => exact .inl (local_quoted.inside inside ▸ .quoted quote)
  | raw quote => exact .inl ((local_upTo _).inside inside ▸ .raw quote)
  | binary bracket => exact .inl ((local_upTo _).inside inside ▸ .binary bracket)
  | numeral starts =>
      refine .inl (numeral_inside inside ▸ .numeral ?_)
      refine starts.imp_right fun ⟨sign, follows⟩ => ⟨sign, ?_⟩
      have reach := run_le_numeral c (x ++ y)
      have digits := run_pos_of_digitFollows follows
      -- The digit behind the sign belongs to the numeral, so `x` holds it.
      cases x with
      | nil =>
          rw [List.length_nil] at inside
          omega
      | cons d x => exact follows
  | identifier start => exact .inl (run_inside inside ▸ .identifier start)
  | unknown stray => exact .inl (.unknown stray.of_append)

/-- **What is left of a token that is cut** begins with a token that is no mark,
and with an identifier exactly if the whole one was an identifier, which then is
all that is left.  Behind it no character ends a statement. -/
theorem Begins.cut_token {token : TokenKind} (begun : Begins c (x ++ y) (.token token) n)
    (cut : x.length < n) :
    ∃ left m, Begins c x (.token left) m ∧ m ≤ x.length ∧ left.mark? = none ∧
      (left = .identifier ↔ token = .identifier) ∧ (token = .identifier → m = x.length) ∧
      ∀ a ∈ x.drop m, a ∉ endMarks := by
  cases begun with
  | mark marked => exact absurd cut (Nat.not_lt_zero _)
  | unknown stray => exact absurd cut (Nat.not_lt_zero _)
  | quoted quote =>
      have begun : Begins c x _ _ := .quoted quote
      rw [local_quoted.cut cut] at begun
      exact ⟨_, _, begun, Nat.le_refl _, rfl, by simp, by simp, by simp⟩
  | raw quote =>
      have begun : Begins c x _ _ := .raw quote
      rw [(local_upTo _).cut cut] at begun
      exact ⟨_, _, begun, Nat.le_refl _, rfl, by simp, by simp, by simp⟩
  | binary bracket =>
      have begun : Begins c x _ _ := .binary bracket
      rw [(local_upTo _).cut cut] at begun
      exact ⟨_, _, begun, Nat.le_refl _, rfl, by simp, by simp, by simp⟩
  | identifier start =>
      have begun : Begins c x _ _ := .identifier start
      rw [run_cut cut] at begun
      exact ⟨_, _, begun, Nat.le_refl _, rfl, by simp, by simp, by simp⟩
  | numeral starts =>
      have noIdentifier : (Piece.numeral c (x ++ y)).1 ≠ .identifier := by
        rcases numeral_kind c (x ++ y) with same | same | same <;> simp [same]
      by_cases remains : StartsNumeral c x
      · obtain ⟨reach, rest⟩ := numeral_cut cut
        refine ⟨_, _, .numeral remains, reach, ?_, ?_, fun same => absurd same noIdentifier, rest⟩
        · rcases numeral_kind c x with same | same | same <;> rw [same] <;> rfl
        · rcases numeral_kind c x with same | same | same <;> simp [same, noIdentifier]
      · -- Only the sign is left, which begins nothing without its digit.
        rcases starts with digit | ⟨sign, follows⟩
        · exact absurd (.inl digit) remains
        · cases x with
          | cons d x => exact absurd (.inr ⟨sign, follows⟩) remains
          | nil =>
              refine ⟨_, _, .unknown (stray_nil ?_), Nat.le_refl _, rfl, ?_, ?_, by simp⟩
              · rcases sign with rfl | rfl <;> simp
              · exact ⟨fun same => (nomatch same), fun same => absurd same noIdentifier⟩
              · exact fun same => absurd same noIdentifier

/-- What is left of a comment that is cut is a comment or an unknown token. -/
theorem Begins.cut_comment (begun : Begins c (x ++ y) kind n)
    (comment : kind = .lineComment ∨ ∃ closed, kind = .blockComment closed)
    (cut : x.length < n) :
    Begins c x .lineComment x.length ∨ Begins c x (.blockComment false) x.length ∨
      Begins c x (.token .unknown) x.length := by
  cases begun with
  | lineComment starts =>
      rcases starts with hash | ⟨sign, follows⟩
      · have begun : Begins c x _ _ := .lineComment (.inl hash)
        rw [run_cut cut] at begun
        exact .inl begun
      · cases x with
        | nil => exact .inr (.inr (.unknown (stray_nil (by rcases sign with rfl | rfl <;> simp))))
        | cons d x =>
            have begun : Begins c (d :: x) _ _ := .lineComment (.inr ⟨sign, follows⟩)
            rw [run_cut cut] at begun
            exact .inl begun
  | blockComment slash star =>
      cases x with
      | nil => exact .inr (.inr (.unknown (stray_nil (by simp [slash]))))
      | cons d x =>
          have begun : Begins c (d :: x) _ _ := .blockComment slash star
          simp only [List.cons_append, List.drop_succ_cons, List.drop_zero, List.length_cons,
            Nat.add_lt_add_iff_right] at cut begun ⊢
          rw [local_blockBody.cut cut] at begun
          exact .inr (.inl begun)
  | _ => simp at comment

/-- A piece does not reach over the end of the text. -/
theorem Begins.le_length {s : List Char} (begun : Begins c s kind n) : n ≤ s.length := by
  have bound {scan : List Char → Nat × Bool} (reads : Local scan) (r : List Char) :
      (scan r).1 ≤ r.length := by
    apply Nat.le_of_not_lt
    intro beyond
    have cut := reads.cut (x := r) (y := []) (by rwa [List.append_nil])
    rw [cut] at beyond
    exact Nat.lt_irrefl _ beyond
  cases begun with
  | mark | blank | unknown => exact Nat.zero_le _
  | continuation =>
      apply Nat.le_of_not_lt
      intro beyond
      have cut := continuationBody_cut (x := s) (y := []) (by rwa [List.append_nil])
      rw [cut] at beyond
      exact Nat.lt_irrefl _ beyond
  | lineComment | identifier => exact run_le_length _ _
  | blockComment slash star =>
      cases s with
      | nil => simp at star
      | cons d s => simpa using bound local_blockBody s
  | quoted => exact bound local_quoted s
  | raw | binary => exact bound (local_upTo _) s
  | numeral =>
      apply Nat.le_of_not_lt
      intro beyond
      have cut := numeral_cut (x := s) (y := []) (by rwa [List.append_nil])
      exact absurd cut.1 (Nat.not_le_of_lt beyond)

/-- A text that is cut inside a piece holds less than the piece. -/
theorem Begins.width_lt (begun : Begins c (x ++ y) kind n) (cut : x.length < n) :
    width (c :: x) < width (c :: (x ++ y).take n) := by
  have reach := begun.le_length
  rw [List.length_append] at reach
  have more : y.take (n - x.length) ≠ [] := by
    intro nothing
    have := congrArg List.length nothing
    simp only [List.length_take, List.length_nil] at this
    omega
  have := width_pos more
  rw [List.take_append, List.take_of_length_le (Nat.le_of_lt cut)]
  simp only [width_cons, width_append]
  omega

/-- What is left of a line continuation that is cut is one. -/
theorem Begins.cut_continuation {joined : Bool}
    (begun : Begins c (x ++ y) (.continuation joined) n) (cut : x.length < n) :
    Begins c x (.continuation true) x.length := by
  cases begun with
  | continuation backslash =>
      have begun : Begins c x _ _ := .continuation backslash
      rwa [continuationBody_cut cut] at begun

end Cut

/-! ## The pieces of a text -/

/-- The first piece of a text, and the pieces behind it. -/
theorem split_eq_cons {c : Char} {s : List Char} {kind : PieceKind} {n : Nat}
    (begun : Begins c s kind n) : split (c :: s) = ⟨kind, c :: s.take n⟩ :: split (s.drop n) := by
  rw [split, begun.first_eq]

/-- Every piece is one that `Begins` allows, at a place of the text. -/
theorem begins_of_mem_split {s : List Char} {p : Piece} (member : p ∈ split s) :
    ∃ c r n, Begins c r p.kind n ∧ p.text = c :: r.take n := by
  fun_induction split s with
  | case1 => simp at member
  | case2 c s kind n computed ih =>
      rcases List.mem_cons.1 member with rfl | member
      · exact ⟨c, s, n, begins_iff.2 computed, rfl⟩
      · exact ih member

/-- The text of a piece is a part of the text. -/
theorem mem_of_mem_split {s : List Char} {p : Piece} (member : p ∈ split s) {a : Char}
    (inside : a ∈ p.text) : a ∈ s := by
  rw [← flatten_split s]
  exact List.mem_flatMap.2 ⟨p, member, inside⟩

/-- A mark is a token by itself. -/
theorem Begins.eq_mark {c : Char} {s : List Char} {token : TokenKind} {n : Nat}
    (begun : Begins c s (.token token) n) {a : Char} (marked : token.mark? = some a) :
    c = a ∧ n = 0 := by
  cases begun with
  | mark mark =>
      rw [mark] at marked
      exact ⟨Option.some.inj marked, rfl⟩
  | numeral starts =>
      rcases numeral_kind c s with same | same | same <;> rw [same] at marked <;>
        simp [TokenKind.mark?] at marked
  | quoted | raw | binary | identifier | unknown => simp [TokenKind.mark?] at marked

/-- An identifier begins with a letter and reaches as far as its characters go. -/
theorem Begins.eq_identifier {c : Char} {s : List Char} {n : Nat}
    (begun : Begins c s (.token .identifier) n) :
    isIdentifierStart c ∧ n = run isIdentifierChar s := by
  generalize kind : PieceKind.token .identifier = k at begun
  cases begun with
  | identifier start => exact ⟨start, rfl⟩
  | mark mark =>
      cases kind
      simp [TokenKind.mark?] at mark
  | numeral starts =>
      rcases numeral_kind c s with same | same | same <;> simp [same] at kind
  | _ => simp at kind

/-- A string begins with its quote and reaches as far as the scan for the closing one. -/
theorem Begins.eq_string {c : Char} {s : List Char} {raw closed : Bool} {n : Nat}
    (begun : Begins c s (.token (.string raw closed)) n) :
    c = (if raw then '\x60' else '"') ∧
      (n, closed) = if raw then upTo '\x60' s else Piece.quoted s := by
  generalize kind : PieceKind.token (.string raw closed) = k at begun
  cases begun with
  | quoted quote | raw quote =>
      cases kind
      exact ⟨quote, rfl⟩
  | mark mark =>
      cases kind
      simp [TokenKind.mark?] at mark
  | numeral starts =>
      rcases numeral_kind c s with same | same | same <;> simp [same] at kind
  | _ => simp at kind

/-- What is left of a string that is cut is a string that is not closed. -/
theorem Begins.cut_string {c : Char} {x y : List Char} {raw closed : Bool} {n : Nat}
    (begun : Begins c (x ++ y) (.token (.string raw closed)) n) (cut : x.length < n) :
    Begins c x (.token (.string raw false)) x.length := by
  obtain ⟨quote, scanned⟩ := begun.eq_string
  cases raw with
  | true =>
      obtain ⟨rfl, rfl⟩ := Prod.mk.inj scanned
      have begun : Begins c x _ _ := .raw quote
      rwa [(local_upTo _).cut cut] at begun
  | false =>
      obtain ⟨rfl, rfl⟩ := Prod.mk.inj scanned
      have begun : Begins c x _ _ := .quoted quote
      rwa [local_quoted.cut cut] at begun

/-- The text of a mark. -/
theorem text_eq_of_mark {s : List Char} {p : Piece} (member : p ∈ split s) {token : TokenKind}
    (kind : p.kind = .token token) {a : Char} (marked : token.mark? = some a) : p.text = [a] := by
  obtain ⟨c, r, n, begun, text⟩ := begins_of_mem_split member
  rw [kind] at begun
  obtain ⟨rfl, rfl⟩ := begun.eq_mark marked
  simpa using text

/-- In a text without the characters that end statements, no token ends one. -/
theorem mark?_notMem_endMarks {s : List Char} (noEnds : ∀ a ∈ s, a ∉ endMarks) {p : Piece}
    (member : p ∈ split s) {token : TokenKind} (kind : p.kind = .token token) {a : Char}
    (marked : token.mark? = some a) : a ∉ endMarks := by
  apply noEnds a
  apply mem_of_mem_split member
  simp [text_eq_of_mark member kind marked]

/-- Two readings of the same pieces.  They differ at most in the last one, where a
backslash that does not continue the line is taken for one that does. -/
def SameReading (ps qs : List Piece) : Prop :=
  ps = qs ∨ ∃ rs text, ps = rs ++ [⟨.continuation true, text⟩] ∧
    qs = rs ++ [⟨.continuation false, text⟩]

theorem SameReading.cons {ps qs : List Piece} (same : SameReading ps qs) (p : Piece) :
    SameReading (p :: ps) (p :: qs) := by
  rcases same with rfl | ⟨rs, text, rfl, rfl⟩
  · exact .inl rfl
  · exact .inr ⟨p :: rs, text, rfl, rfl⟩

/-- The text `x` that is left of `u` behind some pieces of `u ++ v` is empty, or it
begins a piece that it does not hold to its end. -/
inductive CutPiece : List Char → List Piece → Prop where
  | between (todo : List Piece) : CutPiece [] todo
  | within {c : Char} {x y : List Char} {kind : PieceKind} {n : Nat} (todo : List Piece) :
      Begins c (x ++ y) kind n → x.length < n →
      CutPiece (c :: x) (⟨kind, c :: (x ++ y).take n⟩ :: todo)

/-- **The pieces of a text that is cut off.**  Those that end before the cut are
found in both texts; behind them the shorter text holds a part of one piece. -/
theorem split_append (u v : List Char) :
    ∃ done todo x read, split (u ++ v) = done ++ todo ∧ u = done.flatMap text ++ x ∧
      split u = read ++ split x ∧ SameReading read done ∧ CutPiece x todo := by
  cases u with
  | nil => exact ⟨[], split v, [], [], rfl, rfl, rfl, .inl rfl, .between _⟩
  | cons c u =>
      have begun := begins_first c (u ++ v)
      rw [List.cons_append, split_eq_cons begun]
      generalize (first c (u ++ v)).1 = kind at begun ⊢
      generalize (first c (u ++ v)).2 = n at begun ⊢
      by_cases inside : n ≤ u.length
      · have whole : c :: (u ++ v).take n = c :: u.take n := by
          rw [List.take_append_of_le_length inside]
        rw [whole, List.drop_append_of_le_length inside]
        have spelled : c :: u = (c :: u.take n) ++ u.drop n := by
          rw [List.cons_append, List.take_append_drop]
        rcases begun.inside inside with begun' | ⟨stray, atEnd, begun'⟩
        · obtain ⟨done, todo, x, read, cut, rest, part, same, piece⟩ := split_append (u.drop n) v
          refine ⟨⟨kind, c :: u.take n⟩ :: done, todo, x, ⟨kind, c :: u.take n⟩ :: read, ?_, ?_,
            ?_, same.cons _, piece⟩
          · rw [cut, List.cons_append]
          · rw [List.flatMap_cons, List.append_assoc, ← rest]
            exact spelled
          · rw [split_eq_cons begun', part, List.cons_append]
        · -- The text ends behind a backslash with its blanks.
          subst stray atEnd
          refine ⟨[⟨.continuation false, c :: u⟩], split v, [], [⟨.continuation true, c :: u⟩],
            ?_, ?_, ?_, .inr ⟨[], c :: u, rfl, rfl⟩, .between _⟩
          · simp
          · simp
          · rw [split_eq_cons begun']
            simp
      · exact ⟨[], _, c :: u, [], rfl, rfl, rfl, .inl rfl,
          .within _ begun (Nat.lt_of_not_le inside)⟩
termination_by u.length
decreasing_by
  simp only [List.length_drop, List.length_cons]
  omega

end Piece

end PackageRecipe.Sdl
