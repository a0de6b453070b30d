import PackageRecipe.Proofs.Sdl.Placement

/-!
# The tokens of a text that is cut off

What is read from the text in front of a cursor is what is read there from the whole text,
up to the token or the comment that the cursor stands in.

## Main Definitions

* `Span.Straddles` — a place that begins before an offset and ends behind it
* `commentSpans` — the places of the comments of a text
* `lexemeSpans` — the places of its tokens and comments

## Design Notes

Tokens and comments are pieces, and pieces never overlap, so only one of them straddles an
offset: `eq_of_straddles` finds it among the places of all pieces, `Piece.spans`.
-/

namespace PackageRecipe.Text

/-- A place begins before an offset and ends behind it. -/
def Span.Straddles (s : Span) (o : Nat) : Prop :=
  s.start < o ∧ o < s.stop

end PackageRecipe.Text

namespace PackageRecipe.Sdl

open PackageRecipe.Text

namespace Piece

/-- The places of pieces, where the first begins at `start`. -/
def spans (start : Nat) : List Piece → List Span
  | [] => []
  | p :: ps => ⟨start, start + width p.text⟩ :: spans (start + width p.text) ps

/-- The places of the comments among pieces, where the first begins at `start`. -/
def commentSpans (start : Nat) : List Piece → List Span
  | [] => []
  | p :: ps =>
    match p.kind with
    | .lineComment | .blockComment _ =>
      ⟨start, start + width p.text⟩ :: commentSpans (start + width p.text) ps
    | _ => commentSpans (start + width p.text) ps

theorem spans_append (start : Nat) (ps qs : List Piece) :
    spans start (ps ++ qs) = spans start ps ++ spans (start + width (ps.flatMap text)) qs := by
  induction ps generalizing start with
  | nil => rfl
  | cons p ps ih => simp [spans, ih, Nat.add_assoc]

/-- Pieces stand between the beginning of the first and the end of the last. -/
theorem bounds_of_mem_spans {start : Nat} {ps : List Piece} {s : Span}
    (member : s ∈ spans start ps) :
    start ≤ s.start ∧ s.stop ≤ start + width (ps.flatMap text) := by
  induction ps generalizing start with
  | nil => simp [spans] at member
  | cons p ps ih =>
      rw [spans] at member
      rw [List.flatMap_cons, width_append]
      rcases List.mem_cons.1 member with rfl | member
      · simp only
        omega
      · have := ih member
        omega

theorem commentSpans_append (start : Nat) (ps qs : List Piece) :
    commentSpans start (ps ++ qs) =
      commentSpans start ps ++ commentSpans (start + width (ps.flatMap text)) qs := by
  induction ps generalizing start with
  | nil => rfl
  | cons p ps ih =>
      rw [List.cons_append, commentSpans, commentSpans]
      split <;> simp [ih, Nat.add_assoc]

theorem commentSpans_sublist (start : Nat) (ps : List Piece) :
    (commentSpans start ps).Sublist (spans start ps) := by
  induction ps generalizing start with
  | nil => exact .slnil
  | cons p ps ih =>
      rw [commentSpans, spans]
      split
      · exact (ih _).cons_cons _
      · exact (ih _).cons_cons _
      · exact (ih _).cons _

theorem tokenSpans_sublist (start : Nat) (gap : List Char) (ps : List Piece) :
    ((Token.ofPieces start gap ps).map Token.span).Sublist (spans start ps) := by
  induction ps generalizing start gap with
  | nil => exact .slnil
  | cons p ps ih =>
      rw [Token.ofPieces, spans]
      split
      · exact (ih _ _).cons_cons _
      · exact (ih _ _).cons _

end Piece

/-- The places of the comments of a text. -/
def commentSpans (text : List Char) : List Span :=
  Piece.commentSpans 0 (Piece.split text)

/-- The places of the tokens and of the comments of a text. -/
def lexemeSpans (text : List Char) : List Span :=
  (Lexing.ofText text).tokens.map Token.span ++ commentSpans text

theorem lexemeSpans_subset (text : List Char) :
    lexemeSpans text ⊆ Piece.spans 0 (Piece.split text) :=
  List.append_subset.2
    ⟨(Piece.tokenSpans_sublist 0 [] _).subset, (Piece.commentSpans_sublist 0 _).subset⟩

section Cut

variable {text : List Char} {done todo : List Piece} {p : Piece}

/-- The place of a piece that is a token or a comment. -/
theorem mem_lexemeSpans (split : Piece.split text = done ++ p :: todo)
    (lexeme : (∃ kind, p.kind = .token kind) ∨ p.IsComment) :
    ⟨width (done.flatMap Piece.text), width (done.flatMap Piece.text) + width p.text⟩ ∈
      lexemeSpans text := by
  change _ ∈ (Token.ofPieces 0 [] (Piece.split text)).map Token.span ++
    Piece.commentSpans 0 (Piece.split text)
  rw [split, Token.ofPieces_append, Piece.commentSpans_append, Token.ofPieces, Piece.commentSpans,
    Nat.zero_add]
  rcases lexeme with ⟨kind, isToken⟩ | isLine | ⟨closed, isBlock⟩
  · simp [isToken, Token.span, Token.stop]
  · simp [isLine]
  · simp [isBlock]

/-- Only one piece straddles an offset. -/
theorem eq_of_straddles (split : Piece.split text = done ++ p :: todo) {o : Nat}
    (begun : width (done.flatMap Piece.text) < o)
    (ends : o < width (done.flatMap Piece.text) + width p.text) {s : Span}
    (member : s ∈ lexemeSpans text) (straddles : s.Straddles o) :
    s = ⟨width (done.flatMap Piece.text), width (done.flatMap Piece.text) + width p.text⟩ := by
  obtain ⟨early, late⟩ := straddles
  have member := lexemeSpans_subset text member
  rw [split, Piece.spans_append, Nat.zero_add, Piece.spans] at member
  rcases List.mem_append.1 member with before | member
  · have := (Piece.bounds_of_mem_spans before).2
    omega
  · rcases List.mem_cons.1 member with rfl | behind
    · rfl
    · have := (Piece.bounds_of_mem_spans behind).1
      omega

/-- What is read from the part of a piece before a cut lies within the token or the comment
that is cut. -/
theorem within_of_cut {x : List Char} (gap : List Char) (split : Piece.split text = done ++ todo)
    (cut : Piece.CutPiece x todo) :
    let start := width (done.flatMap Piece.text)
    let further := Token.ofPieces start gap (Piece.split x)
    ((∀ s ∈ lexemeSpans text, ¬ s.Straddles (start + width x)) → further = []) ∧
      ∀ s ∈ lexemeSpans text, s.Straddles (start + width x) →
        ∀ t ∈ further, t.span.Within s := by
  intro start further
  cases cut with
  | between =>
      have nothing : further = [] := by simp [further, Piece.split, Token.ofPieces]
      simp [nothing]
  | @within c x y kind n todo begun cut =>
      have less := begun.width_lt cut
      have more : 0 < width (c :: x) := width_pos (by simp)
      -- The piece that is cut straddles the offset, and nothing else does.
      have only : ∀ s ∈ lexemeSpans text, s.Straddles (start + width (c :: x)) →
          s = ⟨start, start + width (c :: (x ++ y).take n)⟩ := by
        intro s member straddles
        exact eq_of_straddles split (Nat.lt_add_of_pos_right more) (Nat.add_lt_add_left less _)
          member straddles
      have inside : ∀ t ∈ further,
          t.span.Within ⟨start, start + width (c :: (x ++ y).take n)⟩ := by
        intro t member
        obtain ⟨low, high⟩ := Token.bounds_of_mem_ofPieces member
        rw [Piece.flatten_split] at high
        exact ⟨low, Nat.le_trans high (Nat.add_le_add_left (Nat.le_of_lt less) _)⟩
      constructor
      · intro none
        have absent (lexeme : (∃ k, kind = .token k) ∨
            Piece.IsComment ⟨kind, c :: (x ++ y).take n⟩) : False :=
          none _ (mem_lexemeSpans split lexeme)
            ⟨Nat.lt_add_of_pos_right more, Nat.add_lt_add_left less _⟩
        cases kind with
        | token k => exact (absent (.inl ⟨k, rfl⟩)).elim
        | lineComment => exact (absent (.inr (.inl rfl))).elim
        | blockComment closed => exact (absent (.inr (.inr ⟨closed, rfl⟩))).elim
        | blank =>
            cases begun
            exact absurd cut (Nat.not_lt_zero _)
        | continuation joined =>
            simp only [further]
            rw [Piece.split_eq_cons (begun.cut_continuation cut)]
            simp [Piece.split, Token.ofPieces]
      · intro s member straddles t found
        rw [only s member straddles]
        exact inside t found

end Cut

/-- **The tokens of a text that is cut off** begin with those of the whole text that end
before the cut.  There are no others if the cut goes through no token and no comment, and
otherwise the others lie within the token or the comment that is cut. -/
theorem Lexing.tokens_before (before after : List Char) :
    let o := width before
    let whole := (Lexing.ofText (before ++ after)).tokens
    ∃ further, (Lexing.ofText before).tokens = whole.filter (·.stop ≤ o) ++ further ∧
      ((∀ s ∈ lexemeSpans (before ++ after), ¬ s.Straddles o) → further = []) ∧
      ∀ s ∈ lexemeSpans (before ++ after), s.Straddles o → ∀ t ∈ further, t.span.Within s := by
  intro o whole
  obtain ⟨done, todo, x, read, gap, gap', split, cut, spelled, -, tokens, part⟩ :=
    Lexing.exists_cut before after
  have place : width before = width (done.flatMap Piece.text) + width x := by
    rw [← width_append, ← spelled]
  refine ⟨Token.ofPieces (width (done.flatMap Piece.text)) gap' (Piece.split x), ?_, ?_⟩
  · have early : ∀ t ∈ Token.ofPieces 0 [] done, t.stop ≤ o := by
      intro t member
      have := (Token.bounds_of_mem_ofPieces member).2
      omega
    have late : ∀ t ∈ Token.ofPieces (width (done.flatMap Piece.text)) gap todo, o < t.stop := by
      rw [show o = width before from rfl, place]
      exact (leftover_of_cut gap gap split cut).2
    have ended : whole.filter (·.stop ≤ o) = Token.ofPieces 0 [] done := by
      rw [show whole = _ from tokens, List.filter_append,
        List.filter_eq_self.2 (by simpa using early),
        List.filter_eq_nil_iff.2 (by simpa using late), List.append_nil]
    rw [ended]
    exact part
  · rw [show o = width before from rfl, place]
    exact within_of_cut gap' split cut

/-- **A text that is cut off in a string** has the tokens in front of the string, and what is
left of the string as an open one. -/
theorem Lexing.tokens_within_string {before after : List Char} {l : Token}
    (member : l ∈ (Lexing.ofText (before ++ after)).tokens) {raw closed : Bool}
    (kind : l.kind = .string raw closed) (straddles : l.span.Straddles (width before)) :
    ∃ done todo front u, (Lexing.ofText (before ++ after)).tokens = done ++ l :: todo ∧
      (Lexing.ofText before).tokens = done ++ [u] ∧ u.kind = .string raw false ∧
      u.start = l.start ∧ before = front ++ u.text ∧ width front = l.start ∧
      (Lexing.ofText before).endsInComment = false := by
  obtain ⟨done, todo, x, read, gap, gap', split, cut, spelled, part, whole, ahead⟩ :=
    Lexing.exists_cut before after
  obtain ⟨begins, ends⟩ := straddles
  simp only [Token.span] at begins ends
  have place : width before = width (done.flatMap Piece.text) + width x := by
    rw [← width_append, ← spelled]
  -- The string is not among the tokens that end before the cut.
  rw [whole] at member
  have member := (List.mem_append.1 member).resolve_left fun early => by
    have := (Token.bounds_of_mem_ofPieces early).2
    omega
  cases cut with
  | between =>
      have := (Token.bounds_of_mem_ofPieces member).1
      rw [width_nil] at place
      omega
  | @within c x y piece n todo begun cut =>
      have less := begun.width_lt cut
      -- All other tokens stand behind the piece that is cut.
      have only {gap : List Char} (behind : l ∈ Token.ofPieces
          (width (done.flatMap Piece.text) + width (c :: (x ++ y).take n)) gap todo) : False := by
        have := (Token.bounds_of_mem_ofPieces behind).1
        omega
      cases piece with
      | token found =>
          simp only [Token.ofPieces] at member whole
          obtain rfl := (List.mem_cons.1 member).resolve_right only
          obtain rfl : found = .string raw closed := kind
          have split' : Piece.split (c :: x) = [⟨.token (.string raw false), c :: x⟩] := by
            rw [Piece.split_eq_cons (begun.cut_string cut), List.take_length, List.drop_length,
              Piece.split]
          refine ⟨_, _, _, ⟨.string raw false, c :: x, gap', _⟩, whole, ?_, rfl, rfl, spelled, rfl,
            ?_⟩
          · rw [ahead, split']
            rfl
          · simp [Lexing.ofText, part, split', Piece.isOpenComment]
      | _ => exact (only member).elim

end PackageRecipe.Sdl
