import PackageRecipe.Proofs.Sdl.Scanning

/-!
# Where tokens stand

The tokens of a text stand in it one behind the other, each on its own bytes.
This file gathers what all later proofs use about their places, and compares the
tokens of a text with those of a text that was cut off.

## Main Definitions

* `Span.Within` — a place within a place
* `Token.Lexed` — a token with a text that the scanner reads as one of its kind
* `Placed` — tokens that the scanner can have found: lexed, and in order
* `InsideComment` — a place in a text that has a comment on both sides
* `Leftover` — what the scanner makes of the part of a piece before a cut

## Design Notes

`Placed` is closed under taking parts of a token list, so it is the hypothesis of
every lemma about the tokens of one statement or one block.  The comparison of
two texts is `tokens_append`: the tokens that end before the cut are the same in
both, and the others are described by `Leftover`.
-/

namespace PackageRecipe.Text

/-- A place within another. -/
def Span.Within (s outer : Span) : Prop :=
  outer.start ≤ s.start ∧ s.stop ≤ outer.stop

instance (s outer : Span) : Decidable (s.Within outer) :=
  inferInstanceAs (Decidable (_ ∧ _))

end PackageRecipe.Text

namespace PackageRecipe.Sdl

open PackageRecipe.Text

/-! ## Tokens that were read from a text -/

namespace Token

/-- The scanner reads the text of the token as a token of its kind. -/
def Lexed (t : Token) : Prop :=
  ∃ c s n, Piece.Begins c s (.token t.kind) n ∧ t.text = c :: s.take n

theorem Lexed.start_lt_stop {t : Token} (lexed : t.Lexed) : t.start < t.stop := by
  obtain ⟨c, s, n, -, text⟩ := lexed
  have nonempty : t.text ≠ [] := by simp [text]
  have := width_pos nonempty
  unfold stop
  omega

/-- No token is empty. -/
theorem Lexed.word_ne {t : Token} (lexed : t.Lexed) : t.word ≠ "" := by
  obtain ⟨c, s, n, -, text⟩ := lexed
  simp [word, text]

/-- The text of a mark is the mark. -/
theorem Lexed.text_eq {t : Token} (lexed : t.Lexed) {a : Char} (marked : t.kind.mark? = some a) :
    t.text = [a] := by
  obtain ⟨c, s, n, begun, text⟩ := lexed
  obtain ⟨rfl, rfl⟩ := begun.eq_mark marked
  simpa using text

/-- A mark takes one byte, so no place lies inside of it. -/
theorem Lexed.stop_eq {t : Token} (lexed : t.Lexed) {a : Char} (marked : t.kind.mark? = some a) :
    t.stop = t.start + 1 := by
  have ascii : a.utf8Size = 1 := by
    cases kind : t.kind <;> simp only [kind, TokenKind.mark?, Option.some.injEq, reduceCtorEq]
      at marked <;> subst marked <;> rfl
  simp [stop, lexed.text_eq marked, ascii]

/-- The text of an identifier: a letter, and the characters that continue it. -/
theorem Lexed.identifier {t : Token} (lexed : t.Lexed) (kind : t.kind = .identifier) :
    ∃ c r, t.text = c :: r ∧ Piece.isIdentifierStart c ∧ ∀ a ∈ r, Piece.isIdentifierChar a := by
  obtain ⟨c, s, n, begun, text⟩ := lexed
  rw [kind] at begun
  obtain ⟨start, rfl⟩ := begun.eq_identifier
  refine ⟨c, s.take (Piece.run Piece.isIdentifierChar s), text, start, fun a member => ?_⟩
  rw [Piece.run, ← List.prefix_iff_eq_take.1 (List.takeWhile_prefix _)] at member
  exact List.all_eq_true.1 List.all_takeWhile a member

/-- The tokens that end a statement are marks. -/
theorem endsStatement_iff {t : Token} :
    t.endsStatement ↔ ∃ a ∈ Piece.endMarks, t.kind.mark? = some a := by
  cases kind : t.kind <;> simp [endsStatement, kind, TokenKind.mark?, Piece.endMarks]

end Token

/-- Tokens as the scanner finds them: each one is read from its text, and they
follow each other. -/
structure Placed (ts : List Token) : Prop where
  lexed : ∀ t ∈ ts, t.Lexed
  ordered : ts.Pairwise fun a b => a.stop ≤ b.start

namespace Placed

variable {ts us : List Token}

theorem append_iff : Placed (ts ++ us) ↔
    Placed ts ∧ Placed us ∧ ∀ t ∈ ts, ∀ u ∈ us, t.stop ≤ u.start := by
  constructor
  · rintro ⟨lexed, ordered⟩
    obtain ⟨left, right, across⟩ := List.pairwise_append.1 ordered
    exact ⟨⟨fun t member => lexed t (List.mem_append_left _ member), left⟩,
      ⟨fun t member => lexed t (List.mem_append_right _ member), right⟩, across⟩
  · rintro ⟨left, right, across⟩
    constructor
    · intro t member
      rcases List.mem_append.1 member with member | member
      · exact left.lexed t member
      · exact right.lexed t member
    · exact List.pairwise_append.2 ⟨left.ordered, right.ordered, across⟩

theorem left (placed : Placed (ts ++ us)) : Placed ts := (append_iff.1 placed).1

theorem right (placed : Placed (ts ++ us)) : Placed us := (append_iff.1 placed).2.1

theorem part (placed : Placed ts) (part : us <:+: ts) : Placed us := by
  obtain ⟨pre, post, rfl⟩ := part
  exact placed.left.right

theorem stop_le_start (placed : Placed (ts ++ us)) {t u : Token} (left : t ∈ ts) (right : u ∈ us) :
    t.stop ≤ u.start := (append_iff.1 placed).2.2 t left u right

theorem tail {t : Token} (placed : Placed (t :: ts)) : Placed ts :=
  (show Placed ([t] ++ ts) from placed).right

theorem head_stop_le_start {t u : Token} (placed : Placed (t :: ts)) (behind : u ∈ ts) :
    t.stop ≤ u.start :=
  (show Placed ([t] ++ ts) from placed).stop_le_start List.mem_cons_self behind

theorem start_lt_stop (placed : Placed ts) {t : Token} (member : t ∈ ts) : t.start < t.stop :=
  (placed.lexed t member).start_lt_stop

end Placed

/-! ## The tokens of pieces -/

namespace Token

/-- The text behind the last token of some pieces, where `gap` is the text
between the token before them and the first of them. -/
def gapBehind (gap : List Char) : List Piece → List Char
  | [] => gap
  | p :: ps =>
    match p.kind with
    | .token _ => gapBehind [] ps
    | _ => gapBehind (gap ++ p.text) ps

/-- The tokens of pieces are found part by part. -/
theorem ofPieces_append (start : Nat) (gap : List Char) (ps qs : List Piece) :
    ofPieces start gap (ps ++ qs) = ofPieces start gap ps ++
      ofPieces (start + width (ps.flatMap Piece.text)) (gapBehind gap ps) qs := by
  induction ps generalizing start gap with
  | nil => rfl
  | cons p ps ih =>
      rw [List.cons_append, ofPieces, ofPieces, gapBehind]
      cases p.kind <;> simp [ih, Nat.add_assoc]

/-- The piece of a token among pieces, with the tokens on both sides. -/
theorem cut_ofPieces {start : Nat} {gap : List Char} {ps : List Piece} {us vs : List Token}
    {t : Token} (cut : ofPieces start gap ps = us ++ t :: vs) :
    ∃ done p todo, ps = done ++ p :: todo ∧ p.kind = .token t.kind ∧ ofPieces start gap done = us ∧
      t = ⟨t.kind, p.text, gapBehind gap done, start + width (done.flatMap Piece.text)⟩ ∧
      ofPieces t.stop [] todo = vs := by
  induction ps generalizing start gap us with
  | nil => simp [ofPieces] at cut
  | cons q qs ih =>
      rw [ofPieces] at cut
      split at cut
      · rename_i kind token
        cases us with
        | nil =>
            obtain ⟨rfl, rest⟩ := List.cons.inj cut
            exact ⟨[], q, qs, rfl, token, rfl, rfl, rest⟩
        | cons u us =>
            obtain ⟨rfl, rest⟩ := List.cons.inj cut
            obtain ⟨done, p, todo, rfl, isToken, before, same, behind⟩ := ih rest
            refine ⟨q :: done, p, todo, rfl, isToken, ?_, ?_, behind⟩
            · simp only [ofPieces, token, before]
            · rw [same]
              simp only [gapBehind, token, List.flatMap_cons, width_append, Nat.add_assoc]
      · rename_i noToken
        obtain ⟨done, p, todo, rfl, isToken, before, same, behind⟩ := ih cut
        refine ⟨q :: done, p, todo, rfl, isToken, ?_, ?_, behind⟩
        · rw [ofPieces]
          split
          · exact absurd ‹_› (noToken _)
          · exact before
        · rw [same, gapBehind]
          split
          · exact absurd ‹_› (noToken _)
          · simp only [List.flatMap_cons, width_append, Nat.add_assoc]

/-- The piece that a token is read from. -/
theorem exists_piece_of_mem_ofPieces {start : Nat} {gap : List Char} {ps : List Piece} {t : Token}
    (member : t ∈ ofPieces start gap ps) :
    ∃ p ∈ ps, p.kind = .token t.kind ∧ p.text = t.text := by
  obtain ⟨us, vs, cut⟩ := List.append_of_mem member
  obtain ⟨done, p, todo, rfl, isToken, -, same, -⟩ := cut_ofPieces cut
  exact ⟨p, by simp, isToken, by rw [same]⟩

/-- The token that is read from a piece. -/
theorem exists_mem_ofPieces {start : Nat} {gap : List Char} {ps : List Piece} {p : Piece}
    {kind : TokenKind} (member : p ∈ ps) (isToken : p.kind = .token kind) :
    ∃ t ∈ ofPieces start gap ps, t.kind = kind ∧ t.text = p.text := by
  obtain ⟨done, todo, rfl⟩ := List.append_of_mem member
  rw [ofPieces_append, ofPieces, isToken]
  exact ⟨_, List.mem_append_right _ List.mem_cons_self, rfl, rfl⟩

/-- The tokens of pieces stand on the bytes of the pieces. -/
theorem bounds_of_mem_ofPieces {start : Nat} {gap : List Char} {ps : List Piece} {t : Token}
    (member : t ∈ ofPieces start gap ps) :
    start ≤ t.start ∧ t.stop ≤ start + width (ps.flatMap Piece.text) := by
  induction ps generalizing start gap with
  | nil => simp [ofPieces] at member
  | cons p ps ih =>
      rw [ofPieces] at member
      simp only [List.flatMap_cons, width_append]
      split at member
      · rcases List.mem_cons.1 member with rfl | member
        · simp only [stop]
          omega
        · have := ih member
          omega
      · have := ih member
        omega

theorem pairwise_ofPieces (start : Nat) (gap : List Char) (ps : List Piece) :
    (ofPieces start gap ps).Pairwise fun a b => a.stop ≤ b.start := by
  induction ps generalizing start gap with
  | nil => exact .nil
  | cons p ps ih =>
      rw [ofPieces]
      split
      · exact .cons (fun t member => (bounds_of_mem_ofPieces member).1) (ih _ _)
      · exact ih _ _

end Token

/-- The scanner places the tokens of a text. -/
theorem Lexing.placed_tokens (text : List Char) : Placed (Lexing.ofText text).tokens := by
  constructor
  · intro t member
    obtain ⟨p, found, kind, same⟩ := Token.exists_piece_of_mem_ofPieces member
    obtain ⟨c, s, n, begun, spelled⟩ := Piece.begins_of_mem_split found
    exact ⟨c, s, n, kind ▸ begun, same ▸ spelled⟩
  · exact Token.pairwise_ofPieces _ _ _

/-! ## The tokens of a text that is cut off -/

/-- A comment, of whatever form. -/
def Piece.IsComment (p : Piece) : Prop :=
  p.kind = .lineComment ∨ ∃ closed, p.kind = .blockComment closed

/-- The byte offset `o` of a text lies inside a comment: the comment begins before
it and ends behind it. -/
def InsideComment (text : List Char) (o : Nat) : Prop :=
  ∃ done p todo, Piece.split text = done ++ p :: todo ∧ p.IsComment ∧
    width (done.flatMap Piece.text) < o ∧
    o < width (done.flatMap Piece.text) + width p.text

/-- The tokens that a text holds behind those that end before a cut at `o`, where
`todo` are the tokens of the whole text that end behind the cut.  Unless the cut
goes through a piece there are none. -/
inductive Leftover (text : List Char) (o : Nat) (todo : List Token) : List Token → Prop where
  | nothing : (∀ t ∈ todo, o ≤ t.start) → Leftover text o todo []
  | comment {left : List Token} : InsideComment text o → (∀ t ∈ todo, o ≤ t.start) →
      (∀ u ∈ left, u.endsStatement = false) → Leftover text o todo left
  | token {t u : Token} {rest left : List Token} : todo = t :: rest → t.start < o → o < t.stop →
      u.kind.mark? = none → (u.kind = .identifier ↔ t.kind = .identifier) →
      (t.kind = .identifier → left = [] ∧ u.stop = o) →
      (∀ v ∈ left, v.endsStatement = false) → Leftover text o todo (u :: left)

namespace Token

/-- Both readings of a backslash at a cut give the same tokens. -/
theorem ofPieces_eq_of_sameReading {ps qs : List Piece} (same : Piece.SameReading ps qs)
    (start : Nat) (gap : List Char) : ofPieces start gap ps = ofPieces start gap qs := by
  rcases same with rfl | ⟨rs, text, rfl, rfl⟩
  · rfl
  · simp [ofPieces_append, ofPieces]

/-- Pieces in which no character ends a statement give tokens that end none. -/
theorem endsStatement_eq_false_of_mem_ofPieces {start : Nat} {gap s : List Char} {t : Token}
    (noEnds : ∀ a ∈ s, a ∉ Piece.endMarks) (member : t ∈ ofPieces start gap (Piece.split s)) :
    t.endsStatement = false := by
  rw [Bool.eq_false_iff]
  intro ends
  obtain ⟨a, isEnd, marked⟩ := endsStatement_iff.1 ends
  obtain ⟨p, found, kind, -⟩ := exists_piece_of_mem_ofPieces member
  exact Piece.mark?_notMem_endMarks noEnds found kind marked isEnd

end Token

/-- What a cut inside a piece leaves over. -/
theorem leftover_of_cut {text x : List Char} {done todo : List Piece} (gap gap' : List Char)
    (split : Piece.split text = done ++ todo) (cut : Piece.CutPiece x todo) :
    let start := width (done.flatMap Piece.text)
    let ahead := Token.ofPieces start gap todo
    Leftover text (start + width x) ahead (Token.ofPieces start gap' (Piece.split x)) ∧
      ∀ t ∈ ahead, start + width x < t.stop := by
  intro start ahead
  cases cut with
  | between =>
      have behind : ∀ t ∈ ahead, start ≤ t.start := fun t member =>
        (Token.bounds_of_mem_ofPieces member).1
      constructor
      · simpa [Piece.split, Token.ofPieces] using .nothing behind
      intro t member
      obtain ⟨p, found, kind, same⟩ := Token.exists_piece_of_mem_ofPieces member
      have nonempty : p.text ≠ [] := by
        apply Piece.text_ne_nil_of_mem_split (s := text)
        rw [split]
        exact List.mem_append_right _ found
      have := behind t member
      have := width_pos (same ▸ nonempty)
      simp only [width_nil, Token.stop]
      omega
  | @within c x y kind n todo begun cut =>
      have less := begun.width_lt cut
      -- Unless the piece that is cut is a token itself, all tokens stand behind it.
      have behind (noToken : ∀ k, kind ≠ .token k) :
          ∀ t ∈ ahead, start + width (c :: x) < t.start := by
        intro t member
        have later : t ∈ Token.ofPieces (start + width (c :: (x ++ y).take n))
            (gap ++ (c :: (x ++ y).take n)) todo := by
          simpa only [ahead, Token.ofPieces] using member
        have := (Token.bounds_of_mem_ofPieces later).1
        omega
      have ends (noToken : ∀ k, kind ≠ .token k) :
          ∀ t ∈ ahead, start + width (c :: x) < t.stop := fun t member =>
        Nat.lt_of_lt_of_le (behind noToken t member) (Nat.le_add_right _ _)
      have inComment (comment : kind = .lineComment ∨ ∃ closed, kind = .blockComment closed) :
          InsideComment text (start + width (c :: x)) :=
        ⟨done, ⟨kind, c :: (x ++ y).take n⟩, todo, split, comment,
          Nat.lt_add_of_pos_right (width_pos (by simp)), Nat.add_lt_add_left less _⟩
      cases kind with
      | token k =>
          obtain ⟨left, m, begun', reach, noMark, same, whole, noEnds⟩ := begun.cut_token cut
          rw [Piece.split_eq_cons begun']
          constructor
          · refine .token rfl ?_ ?_ noMark same ?_ fun v member =>
              Token.endsStatement_eq_false_of_mem_ofPieces noEnds member
            · exact Nat.lt_add_of_pos_right (width_pos (by simp))
            · exact Nat.add_lt_add_left less _
            · intro identifier
              obtain rfl := whole identifier
              simp [Piece.split, Token.ofPieces, Token.stop]
          · intro t member
            simp only [ahead, Token.ofPieces, List.mem_cons] at member
            rcases member with rfl | member
            · exact Nat.add_lt_add_left less _
            · have := (Token.bounds_of_mem_ofPieces member).1
              unfold Token.stop
              omega
      | blank =>
          cases begun
          exact absurd cut (Nat.not_lt_zero _)
      | continuation joined =>
          have noToken : ∀ k, PieceKind.continuation joined ≠ .token k := by simp
          refine ⟨?_, ends noToken⟩
          rw [Piece.split_eq_cons (begun.cut_continuation cut)]
          simpa [Piece.split, Token.ofPieces] using
            .nothing fun t member => Nat.le_of_lt (behind noToken t member)
      | lineComment | blockComment =>
          refine ⟨.comment (inComment (by simp)) (fun t member =>
            Nat.le_of_lt (behind (by simp) t member)) ?_, ends (by simp)⟩
          rcases begun.cut_comment (by simp) cut with begun' | begun' | begun' <;>
            simp [Piece.split_eq_cons begun', Piece.split, Token.ofPieces, Token.endsStatement]

/-- The tokens of a text that is cut off and of the whole text are read from the same
pieces, up to the piece that the cut goes through. -/
theorem Lexing.exists_cut (before after : List Char) :
    ∃ done todo x read gap gap', Piece.split (before ++ after) = done ++ todo ∧
      Piece.CutPiece x todo ∧ before = done.flatMap Piece.text ++ x ∧
      Piece.split before = read ++ Piece.split x ∧
      (Lexing.ofText (before ++ after)).tokens = Token.ofPieces 0 [] done ++
        Token.ofPieces (width (done.flatMap Piece.text)) gap todo ∧
      (Lexing.ofText before).tokens = Token.ofPieces 0 [] done ++
        Token.ofPieces (width (done.flatMap Piece.text)) gap' (Piece.split x) := by
  obtain ⟨done, todo, x, read, cut, rest, part, same, piece⟩ := Piece.split_append before after
  have spelled : read.flatMap Piece.text = done.flatMap Piece.text := by
    rcases same with rfl | ⟨rs, text, rfl, rfl⟩ <;> simp
  refine ⟨done, todo, x, read, Token.gapBehind [] done, Token.gapBehind [] read, cut, piece, rest,
    part, ?_, ?_⟩
  · simp only [Lexing.ofText, cut, Token.ofPieces_append, Nat.zero_add]
  · simp only [Lexing.ofText, part, Token.ofPieces_append, Nat.zero_add, spelled,
      Token.ofPieces_eq_of_sameReading same]

/-- **The tokens of a text that is cut off** are those of the whole text that end
before the cut, and behind them what the cut leaves over. -/
theorem Lexing.tokens_append (before after : List Char) :
    ∃ done todo left, (Lexing.ofText (before ++ after)).tokens = done ++ todo ∧
      (Lexing.ofText before).tokens = done ++ left ∧ (∀ t ∈ done, t.stop ≤ width before) ∧
      (∀ t ∈ todo, width before < t.stop) ∧
      Leftover (before ++ after) (width before) todo left := by
  obtain ⟨done, todo, x, read, gap, gap', cut, piece, spelled, -, whole, part⟩ :=
    Lexing.exists_cut before after
  have place : width before = width (done.flatMap Piece.text) + width x := by
    rw [← width_append, ← spelled]
  obtain ⟨left, behind⟩ := leftover_of_cut gap gap' cut piece
  refine ⟨_, _, _, whole, part, ?_, ?_, ?_⟩
  · intro t member
    have := (Token.bounds_of_mem_ofPieces member).2
    omega
  · rw [place]
    exact behind
  · rw [place]
    exact left

end PackageRecipe.Sdl
