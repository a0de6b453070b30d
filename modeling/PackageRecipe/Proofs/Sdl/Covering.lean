import PackageRecipe.Proofs.Sdl.Containment
import PackageRecipe.Proofs.Sdl.Spacing

/-!
# What stands between tokens

The tokens of a text cover it but for blanks, comments, line continuations and
backslashes that are reported.

## Main Definitions

* `Trivia` — a stretch of a text that gives no token
* `Skipped` — any number of such stretches one behind the other
* `gaps` — the places between tokens

## Design Notes

`Trivia` is stated over characters alone, without the scanner.  It looks at what stands
behind a stretch, since comments and line continuations end where something else begins,
and at the problems of the text, since some stretches have to be reported.
-/

namespace PackageRecipe.Sdl

open PackageRecipe.Text

/-- A stretch of a text that gives no token.  It begins at a byte offset and stands in
front of the rest of the text; `problems` are those found in the text. -/
inductive Trivia (problems : List Problem) (start : Nat) : List Char → List Char → Prop where
  | blank {c : Char} {rest : List Char} : c ∈ [' ', '\t', '\r'] → Trivia problems start [c] rest
  /-- A comment up to the end of the line. -/
  | lineComment (opening : List Char) {body rest : List Char} :
      opening ∈ [['#'], ['/', '/'], ['-', '-']] → '\n' ∉ body →
      (rest = [] ∨ rest.head? = some '\n') → Trivia problems start (opening ++ body) rest
  /-- A comment up to the first place where it is closed. -/
  | blockComment {body rest : List Char} : ¬ ['*', '/'] <:+: body →
      Trivia problems start (['/', '*'] ++ body ++ ['*', '/']) rest
  /-- A comment that is not closed ends with the text and is reported. -/
  | openComment {body : List Char} : ¬ ['*', '/'] <:+: body →
      ⟨⟨start, start + width (['/', '*'] ++ body)⟩, .unterminatedComment⟩ ∈ problems →
      Trivia problems start (['/', '*'] ++ body) []
  /-- A backslash continues the line over a line feed behind it. -/
  | continuation {blanks rest : List Char} : (∀ c ∈ blanks, c ∈ [' ', '\t', '\r']) →
      Trivia problems start ('\\' :: blanks ++ ['\n']) rest
  /-- A backslash may stand at the end of the text. -/
  | ending {blanks : List Char} : (∀ c ∈ blanks, c ∈ [' ', '\t', '\r']) →
      Trivia problems start ('\\' :: blanks) []
  /-- Any other backslash is reported. -/
  | stray {rest : List Char} :
      ⟨⟨start, start + 1⟩, .unexpectedCharacter '\\'⟩ ∈ problems → Trivia problems start ['\\'] rest

/-- Stretches one behind the other that give no tokens. -/
inductive Skipped (problems : List Problem) : Nat → List Char → List Char → Prop where
  | nil {start : Nat} {rest : List Char} : Skipped problems start [] rest
  | cons {start : Nat} {s gap rest : List Char} : Trivia problems start s (gap ++ rest) →
      Skipped problems (start + width s) gap rest → Skipped problems start (s ++ gap) rest

namespace Skipped

variable {problems : List Problem} {start : Nat} {s t rest : List Char}

theorem of_trivia (trivia : Trivia problems start s rest) : Skipped problems start s rest := by
  rw [← List.append_nil s]
  exact .cons trivia .nil

theorem append (first : Skipped problems start s (t ++ rest))
    (second : Skipped problems (start + width s) t rest) :
    Skipped problems start (s ++ t) rest := by
  generalize behind : t ++ rest = r at first
  induction first with
  | nil => simpa using second
  | @cons start u gap r trivia _ ih =>
      subst behind
      rw [width_append, ← Nat.add_assoc] at second
      rw [List.append_assoc]
      exact .cons (by rwa [List.append_assoc]) (ih second rfl)

theorem of_blanks (blanks : ∀ c ∈ s, c ∈ [' ', '\t', '\r']) : Skipped problems start s rest := by
  induction s generalizing start with
  | nil => exact .nil
  | cons c s ih =>
      have first : Trivia problems start [c] (s ++ rest) := .blank (blanks c List.mem_cons_self)
      exact .cons first (ih fun d member => blanks d (List.mem_cons_of_mem _ member))

end Skipped

/-! ## Where comments and continuations end -/

namespace Piece

theorem isLineBlank_iff {c : Char} : isLineBlank c ↔ c ∈ [' ', '\t', '\r'] := by
  simp [isLineBlank, or_assoc]

/-- A comment body reaches up to the first place where it is closed, or to the end. -/
theorem blockBody_cases (s : List Char) :
    (∃ body rest, ¬ ['*', '/'] <:+: body ∧ s = body ++ (['*', '/'] ++ rest) ∧
      blockBody s = (body.length + 2, true)) ∨
    ¬ ['*', '/'] <:+: s ∧ blockBody s = (s.length, false) := by
  induction s with
  | nil => exact .inr ⟨by simp, rfl⟩
  | cons c s ih =>
      by_cases closes : c = '*' ∧ s.head? = some '/'
      · obtain ⟨rfl, slash⟩ := closes
        obtain ⟨r, rfl⟩ := List.head?_eq_some_iff.1 slash
        exact .inl ⟨[], r, by simp, rfl, rfl⟩
      · -- Neither the whole nor a beginning of it begins with the closing characters.
        have opens {r t : List Char} (spelled : s = r ++ t) : ¬ ['*', '/'] <+: c :: r := by
          rintro ⟨u, same⟩
          obtain ⟨rfl, rfl⟩ := List.cons.inj same
          exact closes ⟨rfl, by simp [spelled]⟩
        rw [blockBody_cons closes]
        rcases ih with ⟨body, rest, noEnd, spelled, found⟩ | ⟨noEnd, found⟩
        · refine .inl ⟨c :: body, rest, ?_, by rw [spelled]; rfl, by rw [found]; rfl⟩
          rw [List.infix_cons_iff, not_or]
          exact ⟨opens spelled, noEnd⟩
        · refine .inr ⟨?_, by rw [found]; rfl⟩
          rw [List.infix_cons_iff, not_or]
          exact ⟨opens (List.append_nil s).symm, noEnd⟩

/-- **A piece that is no token** is made of blanks, comments and backslashes. -/
theorem Begins.skipped {c : Char} {s : List Char} {kind : PieceKind} {n : Nat}
    (begun : Begins c s kind n) (noToken : ∀ k, kind ≠ .token k) {problems : List Problem}
    {start : Nat} (reported : ∀ q ∈ problem? start ⟨kind, c :: s.take n⟩, q ∈ problems) :
    Skipped problems start (c :: s.take n) (s.drop n) := by
  cases begun with
  | mark | quoted | raw | binary | numeral | identifier | unknown => exact absurd rfl (noToken _)
  | blank blank => exact .of_trivia (.blank (isLineBlank_iff.1 blank))
  | lineComment starts =>
      -- Behind its first character, the comment reaches over all that is no line feed.
      obtain ⟨inside, rest, spelled, reach, plain, ends⟩ := run_cases (· != '\n') s
      have noFeed : '\n' ∉ inside := fun member => by simpa using plain _ member
      have behind : rest = [] ∨ rest.head? = some '\n' := by
        cases rest with
        | nil => exact .inl rfl
        | cons d r => exact .inr (by simpa using ends d rfl)
      rw [reach, spelled, List.take_left, List.drop_left]
      rcases starts with rfl | ⟨sign, follows⟩
      · exact .of_trivia (.lineComment ['#'] (by simp) noFeed behind)
      · have noFeedSign : c ≠ '\n' := by rcases sign with rfl | rfl <;> decide
        cases inside with
        | nil =>
            rw [spelled, List.nil_append] at follows
            exact absurd (ends c follows) (by simpa using noFeedSign)
        | cons d body =>
            obtain rfl : d = c := by simpa [spelled] using follows
            refine .of_trivia (.lineComment [d, d] ?_ ?_ behind)
            · rcases sign with rfl | rfl <;> simp
            · exact fun member => noFeed (List.mem_cons_of_mem _ member)
  | blockComment slash star =>
      obtain ⟨r, rfl⟩ := List.head?_eq_some_iff.1 star
      subst slash
      rw [List.drop_succ_cons, List.drop_zero] at reported ⊢
      rw [List.take_succ_cons, List.drop_succ_cons] at *
      rcases blockBody_cases r with ⟨body, rest, noEnd, rfl, found⟩ | ⟨noEnd, found⟩
      · have closed : (['*', '/'] ++ rest).take 2 = ['*', '/'] := rfl
        rw [found, List.take_length_add_append, List.drop_length_add_append, closed]
        exact .of_trivia (.blockComment noEnd)
      · simp only [found, List.take_length, List.drop_length] at reported ⊢
        exact .of_trivia (.openComment noEnd (reported _ rfl))
  | continuation backslash =>
      subst backslash
      obtain ⟨blanks, rest, all, rfl, cases⟩ := continuationBody_cases s
      have all : ∀ d ∈ blanks, d ∈ [' ', '\t', '\r'] := fun d member =>
        isLineBlank_iff.1 (all d member)
      rcases cases with ⟨rfl, found⟩ | ⟨⟨r, rfl⟩, found⟩ | found
      · rw [found, List.take_left, List.drop_left]
        exact .of_trivia (.ending all)
      · rw [found, List.take_length_add_append, List.drop_length_add_append]
        exact .of_trivia (.continuation all)
      · rw [found] at reported ⊢
        rw [List.take_left, List.drop_left]
        exact .cons (s := ['\\']) (.stray (reported _ rfl)) (.of_blanks all)

end Piece

/-! ## The gaps of a text -/

/-- The places between some tokens and up to `stop`, the first of which begins at `start`. -/
def gaps (stop : Nat) : Nat → List Token → List Span
  | start, [] => [⟨start, stop⟩]
  | start, t :: ts => ⟨start, t.start⟩ :: gaps stop t.stop ts

section Gaps

variable {problems : List Problem} {text front gap rest : List Char} {place : Nat}

/-- What is skipped behind `front` is what the text holds there. -/
theorem Skipped.slice (skipped : Skipped problems (width front) gap rest)
    (spelled : text = front ++ (gap ++ rest)) (stands : place = width front + width gap) :
    Skipped problems (width front) (slice text ⟨width front, place⟩) (dropBytes place text) := by
  have behind : dropBytes place text = rest := by
    rw [spelled, stands, ← width_append, ← List.append_assoc, dropBytes_width_append]
  rw [behind, spelled, slice_append front gap rest rfl stands]
  exact skipped

/-- Between the tokens of a text that stand in its end `rest`, all is skipped, if the gap in
front of `rest` is.  The induction moves pieces that are no tokens from `rest` to `gap`, and
those that are, with the gap in front of them, to `front`. -/
theorem skipped_gaps (front gap known : List Char) (spelled : text = front ++ (gap ++ rest))
    (skipped : Skipped problems (width front) gap rest) (stands : place = width front + width gap)
    (reported : ∀ q ∈ Piece.problems place (Piece.split rest), q ∈ problems) :
    ∀ s ∈ gaps (width text) (width front) (Token.ofPieces place known (Piece.split rest)),
      Skipped problems s.start (Sdl.slice text s) (dropBytes s.stop text) := by
  induction rest using Piece.split.induct generalizing front gap known place with
  | case1 =>
      intro s member
      rw [Piece.split, Token.ofPieces, gaps, List.mem_singleton] at member
      subst member
      refine skipped.slice spelled ?_
      rw [spelled, List.append_nil, width_append]
  | case2 c r kind n computed ih =>
      have begun := Piece.begins_iff.2 computed
      have cut : c :: r = (c :: r.take n) ++ r.drop n := by
        rw [List.cons_append, List.take_append_drop]
      rw [Piece.split_eq_cons begun, Piece.problems] at reported
      rw [Piece.split_eq_cons begun, Token.ofPieces]
      have here (q : Problem) (found : q ∈ Piece.problem? _ _) :=
        reported q (List.mem_append_left _ (Option.mem_toList.2 found))
      have later (q : Problem) (found : q ∈ Piece.problems _ _) :=
        reported q (List.mem_append_right _ found)
      have onward (noToken : ∀ k, kind ≠ .token k) :
          Skipped problems (width front) (gap ++ c :: r.take n) (r.drop n) := by
        rw [cut] at skipped
        refine skipped.append ?_
        rw [← stands]
        exact begun.skipped noToken here
      generalize c :: r.take n = lexeme at *
      cases kind with
      | token k =>
          have stop : place + width lexeme = width (front ++ gap ++ lexeme) := by
            rw [stands, width_append, width_append]
          intro s member
          rcases List.mem_cons.1 member with rfl | member
          · exact skipped.slice spelled stands
          · apply ih (front ++ gap ++ lexeme) [] [] ?_ .nil ?_ later s
            · rwa [← stop]
            · rw [spelled, cut]
              simp only [List.append_assoc, List.nil_append]
            · rw [stop]
              rfl
      | _ =>
          apply ih front (gap ++ lexeme) (known ++ lexeme) ?_ (onward (by simp)) ?_ later
          · rw [spelled, cut, List.append_assoc]
          · rw [stands, width_append, Nat.add_assoc]

end Gaps

/-- **The tokens of a text cover it.**  They are not empty, stand one behind the other and
cut no character; in front of them, between them and behind them there is nothing but
blanks, comments, line continuations and backslashes that are reported. -/
theorem Lexing.tokens_cover (text : List Char) :
    let lexing := Lexing.ofText text
    (∀ t ∈ lexing.tokens, t.start < t.stop ∧ t.stop ≤ width text ∧ Boundary text t.start ∧
      Boundary text t.stop) ∧
    lexing.tokens.Pairwise (fun a b => a.start < b.start ∧ a.stop ≤ b.start) ∧
    ∀ s ∈ gaps (width text) 0 lexing.tokens,
      Skipped lexing.problems s.start (slice text s) (dropBytes s.stop text) := by
  intro lexing
  have placed := Lexing.placed_tokens text
  refine ⟨?_, ?_, ?_⟩
  · intro t member
    obtain ⟨-, -, inside, start, stop⟩ :=
      (Lexing.row_tokens text).bounds (List.mem_map_of_mem member)
    exact ⟨placed.start_lt_stop member, inside, start, stop⟩
  · refine placed.ordered.imp_of_mem fun member _ apart => ?_
    exact ⟨Nat.lt_of_lt_of_le (placed.start_lt_stop member) apart, apart⟩
  · exact skipped_gaps [] [] [] rfl .nil rfl fun q found => found

end PackageRecipe.Sdl
