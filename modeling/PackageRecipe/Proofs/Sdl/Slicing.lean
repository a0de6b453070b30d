import PackageRecipe.Proofs.Sdl.Cutting
import PackageRecipe.Proofs.Sdl.Reporting
import PackageRecipe.Proofs.Sdl.Shifting
import PackageRecipe.Proofs.Sdl.Spacing

/-!
# The source of a tag

In a document without errors the place of a tag is exactly its source: what the text
holds there is read as this one tag, wherever it stands.

## Main Definitions

* `Token.tight`, `Statement.tight` — without the gap in front

## Design Notes

The statement of a tag is a statement of the grammar by itself (`Reads.exists_of_mem`),
and its tokens are those of a stretch of pieces, which are the pieces of the text that
they spell (`Lexing.of_slice`).  Two things tell the statement from what is read from
that text: the places, which are shifted, and the gap in front of the first token, which
nothing looks at.
-/

namespace PackageRecipe.Sdl

open PackageRecipe.Text

/-! ## Pieces of a stretch of tokens -/

/-- A token without the gap in front of it. -/
def Token.tight (t : Token) : Token := { t with gap := [] }

/-- Tokens up to one of them are read from some pieces of which the last is that token. -/
theorem Token.cut_ofPieces_behind {start : Nat} {gap : List Char} {ps : List Piece}
    {us vs : List Token} {t : Token} (cut : ofPieces start gap ps = us ++ t :: vs) :
    ∃ done p todo, ps = (done ++ [p]) ++ todo ∧ p.kind = .token t.kind ∧
      ofPieces start gap (done ++ [p]) = us ++ [t] ∧
      t.stop = start + width ((done ++ [p]).flatMap Piece.text) := by
  obtain ⟨done, p, todo, rfl, isToken, before, same, -⟩ := cut_ofPieces cut
  refine ⟨done, p, todo, by simp, isToken, ?_, ?_⟩
  · rw [ofPieces_append, before, same]
    simp [ofPieces, isToken]
  · rw [same]
    simp [stop, Nat.add_assoc]

section Slice

variable {text : List Char} {first last : Token} {ts us : List Token}
  (part : first :: ts <:+: (Lexing.ofText text).tokens) (ends : first :: ts = us ++ [last])

include part ends

/-- Some tokens of a text that follow each other are read from a stretch of its pieces. -/
theorem Lexing.exists_pieces :
    ∃ done mid todo, Piece.split text = done ++ (mid ++ todo) ∧
      (∀ p ∈ mid.getLast?, p.kind ≠ .continuation false) ∧
      first.start = width (done.flatMap Piece.text) ∧
      last.stop = width (done.flatMap Piece.text) + width (mid.flatMap Piece.text) ∧
      Token.ofPieces first.start [] mid = first.tight :: ts := by
  obtain ⟨before, after, tokens⟩ := part
  have whole : Token.ofPieces 0 [] (Piece.split text) = (before ++ us) ++ last :: after := by
    rw [List.append_cons, List.append_assoc before, ← ends]
    exact tokens.symm
  obtain ⟨front, q, todo, pieces, isLast, upTo, stop⟩ := Token.cut_ofPieces_behind whole
  rw [List.append_assoc, ← ends] at upTo
  obtain ⟨done, p, rest, cut, isFirst, -, same, behind⟩ := Token.cut_ofPieces upTo
  refine ⟨done, p :: rest, todo, by rw [pieces, cut, List.append_assoc], ?_, ?_, ?_, ?_⟩
  · intro r final
    have final : (front ++ [q]).getLast? = some r := by
      rw [cut, List.getLast?_append, final]
      rfl
    obtain rfl : q = r := by simpa using final
    simp [isLast]
  · rw [same, Nat.zero_add]
  · rw [stop, cut, List.flatMap_append, width_append, Nat.zero_add]
  · have spelled : p.text = first.text := by
      rw [same]
    rw [Token.stop] at behind
    simp only [Token.ofPieces, isFirst, spelled, behind]
    rfl

/-- **The tokens of a part of a text** that reaches from a token to a token are those of
the whole text, but for their places and for the gap in front of the first. -/
theorem Lexing.of_slice :
    let lexing := Lexing.ofText (slice text ⟨first.start, last.stop⟩)
    lexing.tokens.map (Token.shift first.start) = first.tight :: ts ∧
      ((Lexing.ofText text).problems = [] → lexing.problems = []) := by
  obtain ⟨done, mid, todo, split, closed, start, stop, tokens⟩ := Lexing.exists_pieces part ends
  have inner : Piece.split (mid.flatMap Piece.text) = mid :=
    Piece.split_ahead (Piece.split_behind split) closed
  have spelled : slice text ⟨first.start, last.stop⟩ = mid.flatMap Piece.text := by
    rw [← Piece.flatten_split text, split, List.flatMap_append, List.flatMap_append]
    exact slice_append _ _ _ start stop
  rw [spelled]
  constructor
  · simp only [Lexing.ofText, inner, ← Token.ofPieces_shift, Nat.zero_add, tokens]
  · intro none
    simp only [Lexing.ofText, split, Piece.problems_append, List.append_eq_nil_iff] at none
    rw [Piece.problems_shift] at none
    simpa [Lexing.ofText, inner] using none.2.1

end Slice

/-! ## The statement of a tag -/

namespace Statement

/-- **Each tag of a document without errors is read from a statement** that forms a
document by itself. -/
theorem Reads.exists_of_mem {ss : List Statement} {tags : List Tag} (reads : Reads ss tags)
    {levels : Nat} (clean : Clean levels ss) {t : Tag} (member : t ∈ Tag.preorder tags) :
    ∃ s, s.tokens <:+: tokensOfList ss ∧ Reads [s] [t] ∧ Clean levels [s] := by
  induction reads generalizing levels with
  | nil => simp [Tag.preorder] at member
  | separator _ _ ih =>
      obtain ⟨s, part, found⟩ := ih (clean_separator_iff.1 clean).2 member
      exact ⟨s, part.trans (List.suffix_cons _ _).isInfix, found⟩
  | line phrase _ read _ ih =>
      obtain ⟨-, -, rest⟩ := clean_line_iff.1 clean
      rw [Tag.preorder_cons, List.mem_cons] at member
      rcases member with rfl | member
      · exact ⟨_, (List.prefix_append _ _).isInfix, .line phrase trivial read .nil,
          .line phrase trivial .nil⟩
      · obtain ⟨s, part, found⟩ := ih rest (by simpa [Tag.preorder, Head.toTag] using member)
        exact ⟨s, part.trans (List.suffix_append _ _).isInfix, found⟩
  | @block first words h ps o c b r children tags phrase read opening closing body _
      ihBody ihRest =>
      obtain ⟨-, -, -, ⟨d, rfl, inside⟩, rest⟩ := clean_block_iff.1 clean
      rw [Tag.preorder_cons, List.mem_cons, List.mem_append] at member
      rcases member with rfl | member | member
      · exact ⟨_, (List.prefix_append _ _).isInfix, .block phrase read opening closing body .nil,
          .block phrase opening inside closing .nil⟩
      · obtain ⟨s, part, found, clean⟩ := ihBody inside member
        refine ⟨s, part.trans ⟨first :: words ++ [o], c :: tokensOfList r, ?_⟩, found,
          clean.mono (Nat.le_succ d)⟩
        rw [tokensOfList_block]
        simp
      · obtain ⟨s, part, found⟩ := ihRest rest member
        exact ⟨s, part.trans (List.suffix_append _ _).isInfix, found⟩

theorem Reads.unique {ss : List Statement} {ts us : List Tag} (left : Reads ss ts)
    (right : Reads ss us) : ts = us := by
  induction left generalizing us with
  | nil =>
      cases right
      rfl
  | separator _ _ ih =>
      cases right with
      | separator _ rest => exact ih rest
  | line _ _ read _ ih =>
      cases right with
      | line _ _ read' rest =>
          obtain ⟨rfl, rfl⟩ := Prod.mk.inj (Option.some.inj (read.symm.trans read'))
          rw [ih rest]
  | block _ read _ _ _ _ ihBody ihRest =>
      cases right with
      | block _ read' _ _ body rest =>
          obtain ⟨rfl, rfl⟩ := Prod.mk.inj (Option.some.inj (read.symm.trans read'))
          rw [ihBody body, ihRest rest]

/-- A statement without the gap in front of it. -/
def tight : Statement → Statement
  | line (w :: ws) => line (w.tight :: ws)
  | block (w :: ws) o b c => block (w.tight :: ws) o b c
  | s => s

/-- Nothing looks at the gap in front of a statement. -/
theorem tagsOf_tight (textStop depth : Nat) (s : Statement) :
    tagsOf textStop depth [s.tight] = tagsOf textStop depth [s] := by
  have read (w : Token) (ws : List Token) :
      Head.read? (w.tight :: ws) = Head.read? (w :: ws) := rfl
  cases s with
  | separator | stray => rfl
  | line ws =>
      cases ws with
      | nil => rfl
      | cons w ws =>
          simp only [tight, tagsOf, read]
          cases Head.read? (w :: ws) <;> rfl
  | block ws o b c =>
      cases ws with
      | nil => rfl
      | cons w ws =>
          simp only [tight, tagsOf, read]
          cases Head.read? (w :: ws) <;> rfl

/-- The tokens of the statement of a tag, from its beginning up to its end. -/
theorem Reads.tokens_tight {s : Statement} {t : Tag} (reads : Reads [s] [t]) :
    ∃ first ts us last, s.tokens = first :: ts ∧ s.tight.tokens = first.tight :: ts ∧
      first :: ts = us ++ [last] ∧ t.span = some ⟨first.start, last.stop⟩ := by
  cases reads with
  | separator _ rest => cases rest
  | @line first words _ _ _ _ _ _ read _ =>
      obtain ⟨last, ends, stop⟩ := Head.stop_of_read? read
      obtain ⟨us, spelled⟩ := List.getLast?_eq_some_iff.1 ends
      exact ⟨first, words, us, last, rfl, rfl, spelled, by rw [Head.toTag, stop]⟩
  | @block first words _ _ o c b _ _ _ _ _ _ _ _ _ =>
      exact ⟨first, words ++ o :: (tokensOfList b ++ [c]), first :: words ++ o :: tokensOfList b, c,
        rfl, rfl, by simp, rfl⟩

/-- The statement of a tag is balanced without the gap in front of it, too. -/
theorem Balanced.tight {s : Statement} (balanced : Balanced [s]) : Balanced [s.tight] := by
  have words {w : Token} {ws : List Token} (all : Words (w :: ws)) : Words (w.tight :: ws) := by
    obtain ⟨word, rest⟩ := words_cons.1 all
    exact words_cons.2 ⟨word, rest⟩
  cases balanced with
  | separator isSeparator rest => exact .separator isSeparator rest
  | @line ws _ nonempty ends separated rest =>
      cases ws with
      | nil => exact absurd rfl nonempty
      | cons w ws => exact .line (by simp) (words ends) separated rest
  | @block ws _ _ _ _ ends opening body closing rest =>
      cases ws with
      | nil => exact .block ends opening body closing rest
      | cons w ws => exact .block (words ends) opening body closing rest

end Statement

/-! ## Documents -/

/-- **A tag is read from its own source.**  In a document without errors, the text at the
place of a tag is a document without errors, and this tag, further ahead, is all that it
holds. -/
theorem Document.ofText_slice {text : List Char}
    (errorFree : ErrorFree (Document.ofText text).problems) {t : Tag}
    (member : t ∈ (Document.ofText text).root.descendants) :
    ∃ s, t.span = some s ∧ ErrorFree (Document.ofText (slice text s)).problems ∧
      (Document.ofText (slice text s)).root.children.map (Tag.shift s.start) = [t] := by
  obtain ⟨lexes, clean⟩ := (Document.errorFree_iff text).1 errorFree
  rw [Tag.descendants_eq] at member
  obtain ⟨s, part, reads, cleanTag⟩ := (Document.reads errorFree).exists_of_mem clean member
  rw [Statement.ofText, Statement.tokens_ofTokens] at part
  obtain ⟨first, ts, us, last, tokens, tight, ends, span⟩ := reads.tokens_tight
  rw [tokens] at part
  obtain ⟨sliced, noProblems⟩ := Lexing.of_slice part ends
  refine ⟨_, span, ?_⟩
  generalize slice text ⟨first.start, last.stop⟩ = source at sliced noProblems ⊢
  -- Without places and the first gap, the statement of the source is that of the tag.
  have grouped : Statement.mapAll (Token.shift first.start) (Statement.ofText source) =
      [s.tight] := by
    rw [Statement.ofText, ← Statement.ofTokens_shift, sliced, ← tight]
    have alone : Statement.tokensOfList [s.tight] = s.tight.tokens := List.append_nil _
    rw [← alone]
    exact Statement.ofTokens_tokensOfList cleanTag.balanced.tight
  have read : ∃ n, tagsOf n 0 [s] =
      ((tagsOfText source).1.map (Tag.shift first.start),
        (tagsOfText source).2.map (Problem.shift first.start)) := by
    refine ⟨textStop source + first.start, ?_⟩
    rw [← Statement.tagsOf_tight, ← grouped, tagsOf_shift]
    rfl
  obtain ⟨n, read⟩ := read
  constructor
  · have known : ∀ u ∈ Statement.tokensOfList [s], u.kind ≠ .unknown := by
      intro u inside
      apply Lexing.kind_ne_unknown lexes u (part.subset _)
      simpa [Statement.tokensOfList, tokens] using inside
    have errors := (errorFree_tagsOf_iff cleanTag.balanced.grouped known n 0).2 cleanTag
    rw [read] at errors
    rw [Document.ofText_eq]
    simp only [errorFree_sort, errorFree_append, noProblems lexes, errorFree_nil, true_and]
    intro p found
    exact errors (p.shift first.start) (List.mem_map_of_mem found)
  · have only := (cleanTag.reads (show maxDepth = maxDepth - 0 from rfl) n).unique reads
    rw [read] at only
    exact only

/-- A tag inside a block, with a namespace, a value and an attribute. -/
theorem Document.ofText_slice_nested :
    (Document.ofText "a \x7b\n  b:c 1 d=on // e\n\x7d".toList).problems = [] ∧
      ∃ t ∈ (Document.ofText "a \x7b\n  b:c 1 d=on // e\n\x7d".toList).root.descendants,
        t.name = "c" ∧ ∃ s, t.span = some s ∧
          ErrorFree (Document.ofText
            (slice "a \x7b\n  b:c 1 d=on // e\n\x7d".toList s)).problems ∧
          (Document.ofText (slice "a \x7b\n  b:c 1 d=on // e\n\x7d".toList s)).root.children.map
            (Tag.shift s.start) = [t] := by
  have clean : (Document.ofText "a \x7b\n  b:c 1 d=on // e\n\x7d".toList).problems = [] := by cbv
  have names : (Document.ofText "a \x7b\n  b:c 1 d=on // e\n\x7d".toList).root.descendants.map
      Tag.name = ["a", "c"] := by cbv
  have inner : "c" ∈ (Document.ofText
      "a \x7b\n  b:c 1 d=on // e\n\x7d".toList).root.descendants.map Tag.name := by
    rw [names]
    simp
  obtain ⟨t, member, name⟩ := List.mem_map.1 inner
  have errorFree : ErrorFree
      (Document.ofText "a \x7b\n  b:c 1 d=on // e\n\x7d".toList).problems := by
    rw [clean]
    exact errorFree_nil
  exact ⟨clean, t, member, name, Document.ofText_slice errorFree member⟩

end PackageRecipe.Sdl
