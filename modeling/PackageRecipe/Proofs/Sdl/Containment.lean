import PackageRecipe.Proofs.Sdl.Accounting
import PackageRecipe.Proofs.Sdl.Braces
import PackageRecipe.Proofs.Text.Row

/-!
# How the places of tags are nested

The places of a tag, of what it holds and of its children are nested in the text as the
tags are in the tree, whatever is wrong with the text.

## Main Definitions

* `Tag.WellPlaced` — the places of a tag and of its parts are nested
* `Tag.Arranged` — tags in a row, with all tags below them well placed

## Design Notes

The tokens of a text are a row, and each step from tokens to tags makes a row of a row:
of the tokens of a statement the parts of its tag (`Head.row_parts`), and of the tokens
of some statements their tags.  A tag without a closing brace ends with the text, so its
statement has to be the last one: `Statement.Opens` says this of all groups.
-/

namespace PackageRecipe.Sdl

open PackageRecipe.Text

/-! ## The tokens of a text -/

theorem Token.row_ofPieces (before after gap : List Char) (ps : List Piece) :
    Row (before ++ (ps.flatMap Piece.text ++ after)) (width before)
      (width before + width (ps.flatMap Piece.text))
      ((ofPieces (width before) gap ps).map span) := by
  induction ps generalizing before gap with
  | nil => exact .nil (Nat.le_refl _)
  | cons p ps ih =>
      have rest (gap : List Char) := ih (before ++ p.text) gap
      simp only [List.append_assoc, width_append] at rest
      rw [ofPieces]
      simp only [List.flatMap_cons, width_append, List.append_assoc, ← Nat.add_assoc]
      split
      · refine .cons (Nat.le_refl _) (Nat.le_add_right _ _) ⟨before, _, rfl, rfl⟩ ?_ (rest [])
        exact ⟨before ++ p.text, _, (List.append_assoc _ _ _).symm, (width_append _ _).symm⟩
      · exact (rest _).widen (Nat.le_add_right _ _) (Nat.le_refl _)

/-- The tokens of a text stand in it in a row. -/
theorem Lexing.row_tokens (text : List Char) :
    Row text 0 (width text) ((Lexing.ofText text).tokens.map Token.span) := by
  have row := Token.row_ofPieces [] [] [] (Piece.split text)
  simp only [Piece.flatten_split, List.nil_append, List.append_nil, width_nil, Nat.zero_add] at row
  exact row

/-- They end where blocks end that stay open. -/
theorem Lexing.row_textStop (text : List Char) :
    Row text 0 (textStop text) ((Lexing.ofText text).tokens.map Token.span) ∧
      Boundary text (textStop text) ∧ textStop text ≤ width text := by
  have row := Lexing.row_tokens text
  unfold textStop
  cases last : (Lexing.ofText text).tokens.getLast? with
  | none =>
      rw [List.getLast?_eq_none_iff.1 last]
      exact ⟨.nil (Nat.le_refl _), ⟨[], text, rfl, rfl⟩, Nat.zero_le _⟩
  | some t =>
      have ends : ((Lexing.ofText text).tokens.map Token.span).getLast? = some t.span := by
        rw [List.getLast?_map, last, Option.map_some]
      obtain ⟨row, inside, stop⟩ := row.up_to_last ends
      exact ⟨row, stop, inside⟩

/-! ## The parts of a tag -/

namespace Head

/-- The places of what an item adds to a tag, in reading order. -/
def Item.spans : Item → List Span
  | .word t => (t.value?.map Value.span).toList
  | .attribute _ _ _ _ none => []
  | .attribute _ _ nameSpan _ (some (_, v)) => [nameSpan, v.span]

section Rows

variable {text : List Char} {lo hi : Nat}

theorem Item.TakenFrom.row {used : List Token} {i : Item} (taken : TakenFrom used i)
    (row : Row text lo hi (used.map Token.span)) : Row text lo hi i.spans := by
  cases taken with
  | word t =>
      cases literal : t.value? with
      | none => simpa [Item.spans, literal] using .nil row.le
      | some v => simpa [Item.spans, literal, Token.span_of_value? literal] using row
  | assigned | spaced => exact .nil row.le
  | value valueless literal =>
      rw [Item.spans, Token.span_of_value? literal]
      cases valueless with
      | assigned => exact row.sublist (.cons_cons _ (.cons _ (.refl _)))
      | @spaced s c n _ =>
          have merged := Row.merge (a := s.span) (b := n.span) [c.span] row
          exact merged.sublist (.cons_cons _ (.cons _ (.refl _)))

theorem row_items {ts : List Token} (row : Row text lo hi (ts.map Token.span)) :
    Row text lo hi ((items ts).flatMap Item.spans) := by
  induction ts using items.induct generalizing lo with
  | case1 => simpa [items_nil] using row
  | case2 t rest ih =>
      obtain ⟨used, spelled, taken⟩ := takenFrom_takeItem t rest
      rw [spelled, List.map_append] at row
      obtain ⟨mid, first, later⟩ := Row.append_iff.1 row
      rw [items, List.flatMap_cons]
      exact (taken.row first).append (ih later)

theorem row_ofWords? {ws rest : List Token} {h : Head} (begun : ofWords? ws = some (h, rest))
    (row : Row text lo hi (ws.map Token.span)) :
    Row text lo hi (h.nameSpan :: (h.values.map Value.span ++ rest.map Token.span)) := by
  cases ws with
  | nil => simp [ofWords?] at begun
  | cons first words =>
      rcases ofWords?_cases first words with
        ⟨_, _, same⟩ | ⟨c, n, r, rfl, _, _, _, same⟩ | ⟨_, same⟩
      · rw [same] at begun
        cases begun
        exact row
      · rw [same] at begun
        cases begun
        exact Row.merge (b := n.span) [c.span] row
      · rw [same] at begun
        obtain ⟨v, literal, found⟩ := Option.map_eq_some_iff.1 begun
        cases found
        -- The name is the empty place in front of the value.
        cases row with
        | cons begins ordered start stop rest =>
            have value := Row.cons (Nat.le_refl first.start) ordered start stop rest
            rw [List.map_singleton, Token.span_of_value? literal]
            exact .cons begins (Nat.le_refl first.start) start start value

end Rows

/-- What items add to a tag, in reading order and in the order of the tag. -/
theorem perm_spans (is : List Item) : (is.flatMap Item.spans).Perm
    ((is.filterMap Item.attribute?).map Attribute.nameSpan ++
      ((is.filterMap Item.value?).map Value.span ++
        (is.filterMap Item.attribute?).map (·.value.span))) := by
  induction is with
  | nil => exact .refl _
  | cons i is ih =>
      rw [List.flatMap_cons, List.filterMap_cons, List.filterMap_cons]
      cases i with
      | word t =>
          cases literal : t.value? with
          | none =>
              simp only [Item.spans, Item.attribute?, Item.value?, literal]
              exact ih
          | some v =>
              simp only [Item.spans, Item.attribute?, Item.value?, literal]
              exact (ih.cons v.span).trans List.perm_middle.symm
      | «attribute» space name nameSpan e value =>
          cases value with
          | none => exact ih
          | some v =>
              -- The name comes first in both, the value behind all other values.
              refine .cons nameSpan ((ih.cons v.2.span).trans ?_)
              rw [← List.append_assoc]
              refine List.perm_middle.symm.trans ?_
              rw [List.append_assoc]
              exact .refl _

section Words

variable {text : List Char} {lo hi : Nat} {first : Token} {words : List Token} {h : Head}
  {ps : List Problem}

/-- The words of a tag stand between its beginning and what it takes for its end. -/
theorem row_words (read : read? (first :: words) = some (h, ps))
    (row : Row text lo hi ((first :: words).map Token.span)) :
    Row text first.start h.stop ((first :: words).map Token.span) ∧ h.stop ≤ hi ∧
      Boundary text h.stop := by
  obtain ⟨b, last, stop⟩ := stop_of_read? read
  have ends : ((first :: words).map Token.span).getLast? = some b.span := by
    rw [List.getLast?_map, last, Option.map_some]
  rw [stop]
  exact row.from_head.up_to_last ends

/-- The parts of a tag stand there in a row. -/
theorem row_parts (read : read? (first :: words) = some (h, ps))
    (row : Row text lo hi ((first :: words).map Token.span)) (stop : Nat) (children : List Tag) :
    ∃ parts, Row text first.start h.stop parts ∧
      parts.Perm ((h.toTag first.start stop children).nameSpans ++
        (h.toTag first.start stop children).valueSpans) := by
  obtain ⟨⟨h₀, rest⟩, begun, -⟩ := Option.map_eq_some_iff.1 read
  have whole := row_ofWords? begun (row_words read row).1
  obtain ⟨mid, name, words⟩ := Row.append_iff.1 (List.cons_append ▸ whole)
  refine ⟨_, name.append (row_items words), ?_⟩
  obtain ⟨stop, rfl⟩ := eq_of_read? begun read
  refine ((perm_spans (items rest)).append_left _).trans ?_
  simp only [toTag, Tag.nameSpans, Tag.valueSpans, (begin_of_ofWords? begun).1, List.nil_append,
    List.map_append, List.cons_append, List.append_assoc]
  exact .cons _ (List.perm_append_comm_assoc _ _ _)

end Words

end Head

/-! ## Tags in their places -/

namespace Tag

/-- The place of a tag with its block. -/
def place (t : Tag) : Span := t.span.getD ⟨0, 0⟩

/-- The places of a tag, of its parts and of its children are nested. -/
structure WellPlaced (text : List Char) (t : Tag) : Prop where
  /-- The tag has a place in the text. -/
  span : t.span = some t.place
  bounds : t.place.start ≤ t.place.stop ∧ t.place.stop ≤ width text
  /-- The tag begins with its name. -/
  name : t.nameSpan.start = t.place.start
  /-- Its names and values stand inside of it, -/
  parts : ∀ s ∈ t.nameSpans ++ t.valueSpans, s.start ≤ s.stop ∧ s.Within t.place
  /-- apart from each other -/
  apart : (t.nameSpans ++ t.valueSpans).Pairwise fun a b => a.stop ≤ b.start ∨ b.stop ≤ a.start
  /-- and in front of all children. -/
  ahead : ∀ s ∈ t.nameSpans ++ t.valueSpans, ∀ c ∈ t.children, s.stop ≤ c.place.start
  /-- The children stand inside of it, too, one behind the other. -/
  children : ∀ c ∈ t.children, c.place.Within t.place
  siblings : t.children.Pairwise fun a b => a.place.stop ≤ b.place.start
  /-- No place cuts a character. -/
  boundaries : ∀ s ∈ t.place :: (t.nameSpans ++ t.valueSpans),
    Boundary text s.start ∧ Boundary text s.stop

/-- Tags that stand in a row, with all tags below them in their places. -/
structure Arranged (text : List Char) (lo hi : Nat) (tags : List Tag) : Prop where
  row : Row text lo hi (tags.map place)
  each : ∀ t ∈ preorder tags, t.WellPlaced text

namespace Arranged

variable {text : List Char} {lo mid hi : Nat} {ts us : List Tag}

theorem nil (bounds : lo ≤ hi) : Arranged text lo hi [] :=
  ⟨.nil bounds, by simp [preorder]⟩

theorem widen (arranged : Arranged text lo hi ts) {lo' hi' : Nat} (low : lo' ≤ lo)
    (high : hi ≤ hi') : Arranged text lo' hi' ts :=
  ⟨arranged.row.widen low high, arranged.each⟩

theorem append (left : Arranged text lo mid ts) (right : Arranged text mid hi us) :
    Arranged text lo hi (ts ++ us) where
  row := by
    rw [List.map_append]
    exact left.row.append right.row
  each := by
    intro t member
    rw [preorder_append] at member
    rcases List.mem_append.1 member with member | member
    · exact left.each t member
    · exact right.each t member

end Arranged

end Tag

section Tags

variable {text : List Char} {lo hi : Nat} {first : Token} {words : List Token} {h : Head}
  {ps : List Problem}

/-- A tag is in its place if its words and its children are. -/
theorem Head.arranged (read : read? (first :: words) = some (h, ps))
    (row : Row text lo hi ((first :: words).map Token.span)) {stop : Nat} {children : List Tag}
    (below : Tag.Arranged text h.stop stop children) (ends : Boundary text stop)
    (inside : stop ≤ width text) :
    Tag.Arranged text lo stop [h.toTag first.start stop children] := by
  obtain ⟨here, -, -⟩ := row_words read row
  obtain ⟨parts, inRow, perm⟩ := row_parts read row stop children
  obtain ⟨begins, -, -, start, -⟩ := row.bounds (s := first.span) (by simp)
  have behind := below.row.le
  have whole : first.start ≤ stop := Nat.le_trans here.le behind
  have placed : Tag.WellPlaced text (h.toTag first.start stop children) := by
    constructor
    case span => rfl
    case bounds => exact ⟨whole, inside⟩
    case name => exact nameSpan_start read
    case parts =>
      intro s member
      obtain ⟨low, ordered, high, -, -⟩ := inRow.bounds (perm.mem_iff.2 member)
      exact ⟨ordered, low, Nat.le_trans high behind⟩
    case apart =>
      exact (perm.pairwise_iff fun apart => apart.symm).1 (inRow.pairwise.imp .inl)
    case ahead =>
      intro s member c child
      obtain ⟨-, -, high, -, -⟩ := inRow.bounds (perm.mem_iff.2 member)
      exact Nat.le_trans high (below.row.bounds (List.mem_map_of_mem child)).1
    case children =>
      intro c child
      obtain ⟨low, -, high, -, -⟩ := below.row.bounds (List.mem_map_of_mem child)
      exact ⟨Nat.le_trans here.le low, high⟩
    case siblings => exact List.pairwise_map.1 below.row.pairwise
    case boundaries =>
      intro s member
      rcases List.mem_cons.1 member with rfl | member
      · exact ⟨start, ends⟩
      · obtain ⟨-, -, -, low, high⟩ := inRow.bounds (perm.mem_iff.2 member)
        exact ⟨low, high⟩
  constructor
  · exact .cons begins whole start ends (.nil (Nat.le_refl _))
  · intro t member
    rw [Tag.preorder_cons, List.mem_cons] at member
    rcases member with rfl | member
    · exact placed
    · exact below.each t (by simpa [Tag.preorder, toTag] using member)

variable {textStop depth : Nat}

theorem arranged_line {ws : List Token} (row : Row text lo hi (ws.map Token.span))
    (inside : hi ≤ width text) :
    Tag.Arranged text lo hi (tagsOf textStop depth [.line ws]).1 := by
  rcases tagsOf_line_cases textStop depth ws with
    given | ⟨first, _, given⟩ | ⟨first, _, h, ps, rfl, read, given⟩
  · rw [given]
    exact .nil row.le
  · rw [given]
    exact .nil row.le
  · obtain ⟨-, ends, stop⟩ := Head.row_words read row
    rw [given]
    exact (Head.arranged read row (.nil (Nat.le_refl _)) stop (ends.trans inside)).widen
      (Nat.le_refl _) ends

/-- The tag of a block ends at `e`, or at `e'` if its content is skipped. -/
theorem arranged_block {ws : List Token} {o : Token} {b : List Statement} {c : Option Token}
    {e e' : Nat} (row : Row text lo o.stop ((ws ++ [o]).map Token.span))
    (body : Tag.Arranged text o.stop e (tagsOf textStop (depth + 1) b).1)
    (kept : (c.map Token.stop).getD (max o.stop textStop) = e) (ends : Boundary text e)
    (inside : e ≤ width text) (skipped : (c.map Token.stop).getD o.stop = e')
    (ends' : Boundary text e') (behind : o.stop ≤ e') (before : e' ≤ e) :
    Tag.Arranged text lo e (tagsOf textStop depth [.block ws o b c]).1 := by
  have whole := row.le
  rw [List.map_append] at row
  obtain ⟨mid, words, opening⟩ := Row.append_iff.1 row
  have apart := opening.le
  rcases tagsOf_block_cases textStop depth ws o b c with
    ⟨first, _, given⟩ | ⟨first, _, h, ps, rfl, read, given⟩
  · rw [given]
    exact .nil (whole.trans (behind.trans before))
  · obtain ⟨-, high, -⟩ := Head.row_words read words
    rcases given with given | given
    · rw [given, kept]
      exact Head.arranged read words (body.widen (high.trans apart) (Nat.le_refl _)) ends inside
    · have empty : Tag.Arranged text h.stop e' [] := .nil (high.trans (apart.trans behind))
      rw [given, skipped]
      exact (Head.arranged read words empty ends' (before.trans inside)).widen (Nat.le_refl _)
        before

/-- The tags of balanced groups are in their places. -/
theorem Statement.Balanced.arranged {ss : List Statement} (balanced : Balanced ss)
    (row : Row text lo hi ((tokensOfList ss).map Token.span)) (inside : hi ≤ width text)
    (textStop depth : Nat) : Tag.Arranged text lo hi (tagsOf textStop depth ss).1 := by
  induction balanced generalizing lo hi depth with
  | nil => simpa [tagsOf] using .nil row.le
  | separator _ _ ih =>
      rw [tagsOf]
      exact ih (row.sublist (List.sublist_cons_self _ _)) inside depth
  | line _ _ _ _ ih =>
      rw [tokensOfList, tokens, List.map_append] at row
      obtain ⟨mid, words, rest⟩ := Row.append_iff.1 row
      rw [tagsOf_cons_append]
      exact (arranged_line words (rest.le.trans inside)).append (ih rest inside depth)
  | @block ws o c b r _ _ _ _ _ ihBody ihRest =>
      rw [tokensOfList_block, List.append_cons, List.map_append] at row
      obtain ⟨mid, words, behind⟩ := Row.append_iff.1 row
      rw [List.map_append] at behind
      obtain ⟨mid', body, closing⟩ := Row.append_iff.1 behind
      cases closing with
      | cons low ordered _ ends rest =>
          obtain ⟨opened, high, _⟩ := words.up_to_last (s := o.span) (by simp)
          have inside' := rest.le.trans inside
          have below := (ihBody body (low.trans (ordered.trans inside')) (depth + 1)).widen high
            (low.trans ordered)
          have tag : Tag.Arranged text lo c.stop
              (tagsOf textStop depth [.block ws o b (some c)]).1 :=
            arranged_block opened below rfl ends inside' rfl ends below.row.le (Nat.le_refl _)
          rw [tagsOf_cons_append]
          exact tag.append (ihRest rest inside depth)

/-- The tags of groups with open blocks are in their places, if what is open ends with
the text. -/
theorem Statement.Opens.arranged {os : List Token} {ss : List Statement} (opens : Opens os ss)
    {textStop : Nat} (row : Row text lo textStop ((tokensOfList ss).map Token.span))
    (ends : Boundary text textStop) (inside : textStop ≤ width text) (depth : Nat) :
    Tag.Arranged text lo textStop (tagsOf textStop depth ss).1 := by
  induction opens generalizing lo depth with
  | balanced balanced => exact balanced.arranged row inside textStop depth
  | @block ss b ws os o balanced _ _ _ ih =>
      have last : tokensOfList [Statement.block ws o b none] = ws ++ [o] ++ tokensOfList b := by
        simp [tokensOfList, tokens]
      rw [tokensOfList_append, last, List.map_append, List.map_append] at row
      obtain ⟨mid, before, behind⟩ := Row.append_iff.1 row
      obtain ⟨mid', words, body⟩ := Row.append_iff.1 behind
      obtain ⟨opened, high, stop⟩ := words.up_to_last (s := o.span) (by simp)
      have below := (ih body (depth + 1)).widen high (Nat.le_refl _)
      rw [tagsOf_append]
      refine (balanced.arranged before (behind.le.trans inside) textStop depth).append
        (arranged_block opened below ?_ ends inside rfl stop (Nat.le_refl _) below.row.le)
      exact Nat.max_eq_right below.row.le

theorem Statement.Suffix.Leaves.arranged {cs os : List Token} {s : Suffix} (leaves : s.Leaves cs os)
    {textStop : Nat} (row : Row text lo textStop ((tokensOfList s.close).map Token.span))
    (ends : Boundary text textStop) (inside : textStop ≤ width text) (depth : Nat) :
    Tag.Arranged text lo textStop (tagsOf textStop depth s.close).1 := by
  induction leaves generalizing lo with
  | last opens =>
      simp only [Suffix.close, List.flatMap_nil, List.append_nil] at row ⊢
      exact opens.arranged row ends inside depth
  | @stray cs os c ss r outer balanced _ _ ih =>
      rw [close_stray, tokensOfList_append, List.map_append] at row
      obtain ⟨mid, before, behind⟩ := Row.append_iff.1 row
      rw [close_stray, tagsOf_append]
      refine (balanced.arranged before (behind.le.trans inside) textStop depth).append ?_
      rw [tagsOf]
      exact ih (behind.sublist (List.sublist_cons_self _ _))

end Tags

/-- The tags of a text stand in it in a row, each in its place. -/
theorem Document.arranged (text : List Char) :
    Tag.Arranged text 0 (textStop text) (Document.ofText text).root.children := by
  obtain ⟨row, ends, inside⟩ := Lexing.row_textStop text
  have leaves := Statement.leaves_ofTokens (Lexing.ofText text).tokens
  rw [← Statement.tokens_ofTokens (Lexing.ofText text).tokens] at row
  exact leaves.arranged row ends inside 0

/-- **The places of the tags of a text are nested as the tags are**, whatever is wrong
with the text: the tags of the text stand one behind the other, and each tag of the tree
is in its place. -/
theorem Document.wellPlaced (text : List Char) :
    let root := (Document.ofText text).root
    root.children.Pairwise (fun a b => a.place.stop ≤ b.place.start) ∧
      ∀ t ∈ root.descendants, t.WellPlaced text := by
  intro root
  have arranged := Document.arranged text
  constructor
  · exact List.pairwise_map.1 arranged.row.pairwise
  · intro t member
    rw [Tag.descendants_eq] at member
    exact arranged.each t member

end PackageRecipe.Sdl
