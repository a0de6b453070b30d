import Mathlib
import PackageRecipe.Proofs.Sdl.Grammar

/-!
# Every word of a document is kept

A document without errors holds each of its literals once, as a value of a tag or
of an attribute, and each of its names once, as a part of the name of a tag or of
an attribute.

## Main Definitions

* `Tag.valueSpans`, `Tag.nameSpans` — where the values and the names of a tag stand
* `Accounts` — spans of which exactly one belongs to each wanted token

## Design Notes

Literals and names are counted in the same way: `Accounts` says which tokens are
wanted and when a span belongs to one, and it only depends on tokens that follow
each other.  `accounts_preorder` carries it from the words of a statement to a whole
tree, for either.
-/

namespace PackageRecipe.Sdl

open PackageRecipe.Text

/-- The places of the values that a tag holds, its own and those of its
attributes. -/
def Tag.valueSpans (t : Tag) : List Span :=
  t.values.map Value.span ++ t.attributes.map (·.value.span)

/-- The places of the names that a tag holds, its own and those of its
attributes. -/
def Tag.nameSpans (t : Tag) : List Span :=
  t.nameSpan :: t.attributes.map Attribute.nameSpan

/-! ## Spans that account for tokens -/

/-- Spans that lie on some tokens, and of which exactly one belongs to each wanted
token. -/
structure Accounts (wanted : Token → Prop) (belongs : Token → Span → Bool) (ts : List Token)
    (spans : List Span) : Prop where
  inside : ∀ s ∈ spans, ∃ a ∈ ts, ∃ b ∈ ts, a.start ≤ s.start ∧ s.stop ≤ b.stop
  once : ∀ t ∈ ts, wanted t → spans.countP (belongs t) = 1

section Accounts

variable {wanted : Token → Prop} {belongs : Token → Span → Bool}
  {ts us : List Token} {spans others : List Span}

theorem Accounts.perm (accounts : Accounts wanted belongs ts spans) (perm : spans.Perm others) :
    Accounts wanted belongs ts others where
  inside := fun s member => accounts.inside s (perm.mem_iff.2 member)
  once := fun t member want => perm.countP_eq _ ▸ accounts.once t member want

/-- Tokens that are not wanted need no span. -/
theorem Accounts.unwanted (unwanted : ∀ t ∈ ts, ¬ wanted t) : Accounts wanted belongs ts [] where
  inside := by simp
  once := fun t member want => absurd want (unwanted t member)

/-- One span accounts for some tokens if it belongs to all that are wanted. -/
theorem Accounts.singleton {s : Span} {a b : Token} (first : a ∈ ts) (last : b ∈ ts)
    (inside : a.start ≤ s.start ∧ s.stop ≤ b.stop)
    (all : ∀ t ∈ ts, wanted t → belongs t s) : Accounts wanted belongs ts [s] where
  inside := by
    simp only [List.mem_singleton, forall_eq]
    exact ⟨a, first, b, last, inside⟩
  once := fun t member want => by simp [all t member want]

/-- Accounts of tokens and of those that follow them are put together. -/
theorem Accounts.append (ts : List Token) (spans : List Span)
    (within : ∀ t s, belongs t s → t.span.Within s) (placed : Placed (ts ++ us))
    (left : Accounts wanted belongs ts spans) (right : Accounts wanted belongs us others) :
    Accounts wanted belongs (ts ++ us) (spans ++ others) where
  inside := by
    intro s member
    rcases List.mem_append.1 member with member | member
    · obtain ⟨a, ha, b, hb, bounds⟩ := left.inside s member
      exact ⟨a, List.mem_append_left _ ha, b, List.mem_append_left _ hb, bounds⟩
    · obtain ⟨a, ha, b, hb, bounds⟩ := right.inside s member
      exact ⟨a, List.mem_append_right _ ha, b, List.mem_append_right _ hb, bounds⟩
  once := by
    -- The spans of one side lie on its tokens, so none belongs to a token of the other.
    intro t member want
    rw [List.countP_append]
    rcases List.mem_append.1 member with member | member
    · have none : others.countP (belongs t) = 0 := by
        rw [List.countP_eq_zero]
        intro s inOthers belongs
        obtain ⟨a, inRight, -, -, behind, -⟩ := right.inside s inOthers
        have apart := placed.stop_le_start member inRight
        have nonempty := placed.left.start_lt_stop member
        have start : s.start ≤ t.start := (within t s belongs).1
        omega
      rw [left.once t member want, none]
    · have none : spans.countP (belongs t) = 0 := by
        rw [List.countP_eq_zero]
        intro s inSpans belongs
        obtain ⟨-, -, b, inLeft, -, before⟩ := left.inside s inSpans
        have apart := placed.stop_le_start inLeft member
        have nonempty := placed.right.start_lt_stop member
        have stop : t.stop ≤ s.stop := (within t s belongs).2
        omega
      rw [right.once t member want, none]

end Accounts

/-! ## The words of a statement -/

/-- One span for each literal: its own. -/
abbrev AccountsLiterals (ts : List Token) (spans : List Span) : Prop :=
  Accounts Token.IsLiteral (fun t s => s == t.span) ts spans

/-- One span for each name: one that it lies in. -/
abbrev AccountsNames (ts : List Token) (spans : List Span) : Prop :=
  Accounts (fun t => t.isName) (fun t s => t.span.Within s) ts spans

theorem within_of_beq_span (t : Token) (s : Span) (same : s == t.span) : t.span.Within s := by
  obtain rfl := eq_of_beq same
  exact ⟨Nat.le_refl _, Nat.le_refl _⟩

theorem within_of_decide (t : Token) (s : Span) (within : decide (t.span.Within s)) :
    t.span.Within s := of_decide_eq_true within

theorem Token.not_isLiteral_of_isName {t : Token} (name : t.isName) : ¬ t.IsLiteral := by
  simp [Token.IsLiteral, Token.value?_eq_none_of_isName name]

theorem Token.not_isLiteral_of_mark {t : Token} {a : Char} (marked : t.kind.mark? = some a) :
    ¬ t.IsLiteral := by
  simp [Token.IsLiteral, Token.value?_eq_none_of_mark marked]

theorem Token.mark?_of_equals {t : Token} (kind : t.kind = .equals) : t.kind.mark? = some '=' := by
  simp [kind, TokenKind.mark?]

theorem Token.mark?_of_colon {t : Token} (kind : t.kind = .colon) : t.kind.mark? = some ':' := by
  simp [kind, TokenKind.mark?]

namespace Head

/-- Each literal among items is the value of one of them. -/
theorem accountsLiterals_items {ts : List Token} (grammatical : Items ts) (placed : Placed ts) :
    AccountsLiterals ts (((items ts).filterMap Item.value?).map Value.span ++
      ((items ts).filterMap Item.attribute?).map (·.value.span)) := by
  -- The value of an attribute is put in front of all values, as the tokens come.
  have front (us : List Token) (v : Token) (ts : List Token) (values : List Span)
      {attributes : List Span}
      (placed : Placed (us ++ [v] ++ ts)) (none : ∀ t ∈ us, ¬ t.IsLiteral)
      (rest : AccountsLiterals ts (values ++ attributes)) :
      AccountsLiterals (us ++ [v] ++ ts) (values ++ v.span :: attributes) := by
    have moved : (v.span :: (values ++ attributes)).Perm (values ++ v.span :: attributes) :=
      List.perm_middle.symm
    refine .perm (.append _ [v.span] within_of_beq_span placed ?_ rest) moved
    refine .singleton (a := v) (b := v) (by simp) (by simp) ⟨Nat.le_refl _, Nat.le_refl _⟩ ?_
    intro t member literal
    rcases List.mem_append.1 member with member | member
    · exact absurd literal (none t member)
    · simp [List.mem_singleton.1 member]
  induction grammatical with
  | nil => simpa [items_nil] using .unwanted (by simp)
  | @literal v ts literal _ ih =>
      obtain ⟨value, literal'⟩ := Token.isLiteral_iff.1 literal
      have rest := front [] v ts [] placed (by simp) (ih placed.tail)
      simpa [items_literal literal, List.filterMap_cons, Item.value?, Item.attribute?, literal',
        Token.span_of_value? literal'] using rest
  | @assigned n e v ts name equals literal _ ih =>
      obtain ⟨value, literal⟩ := Token.isLiteral_iff.1 literal
      have rest := front [n, e] v ts _ placed
        (by simp [Token.not_isLiteral_of_isName name,
          Token.not_isLiteral_of_mark (Token.mark?_of_equals equals)]) (ih placed.tail.tail.tail)
      simpa [items_assigned name equals literal, List.filterMap_cons, Item.value?,
        Item.attribute?, Token.span_of_value? literal] using rest
  | @spaced s c n e v ts space colon name equals literal _ ih =>
      obtain ⟨value, literal⟩ := Token.isLiteral_iff.1 literal
      have rest := front [s, c, n, e] v ts _ placed
        (by simp [Token.not_isLiteral_of_isName name, Token.not_isLiteral_of_isName space,
          Token.not_isLiteral_of_mark (Token.mark?_of_equals equals),
          Token.not_isLiteral_of_mark (Token.mark?_of_colon colon)])
        (ih placed.tail.tail.tail.tail.tail)
      simpa [items_spaced space colon name equals literal, List.filterMap_cons, Item.value?,
        Item.attribute?, Token.span_of_value? literal] using rest

/-- A name that is the only one among some tokens. -/
theorem accountsNames_plain {n : Token} {ts : List Token} (others : ∀ t ∈ ts, t.isName = false) :
    AccountsNames (n :: ts) [n.span] := by
  refine .singleton (a := n) (b := n) (by simp) (by simp) ⟨Nat.le_refl _, Nat.le_refl _⟩ ?_
  intro t member name
  rcases List.mem_cons.1 member with rfl | member
  · simp [Span.Within]
  · simp [others t member] at name

/-- A namespace and a name that are the only ones among some tokens. -/
theorem accountsNames_spaced {s c n : Token} {ts : List Token} (colon : c.kind = .colon)
    (placed : Placed (s :: c :: n :: ts)) (others : ∀ t ∈ ts, t.isName = false) :
    AccountsNames (s :: c :: n :: ts) [⟨s.start, n.stop⟩] := by
  have apart : s.stop ≤ n.start := placed.head_stop_le_start (by simp)
  have space := placed.start_lt_stop (t := s) (by simp)
  have name := placed.start_lt_stop (t := n) (by simp)
  refine .singleton (a := s) (b := n) (by simp) (by simp) ⟨Nat.le_refl _, Nat.le_refl _⟩ ?_
  intro t member isName
  simp only [List.mem_cons] at member
  rcases member with rfl | rfl | rfl | member
  · exact decide_eq_true ⟨Nat.le_refl _, by simp only [Token.span]; omega⟩
  · simp [Token.isName_eq_false_of_mark (Token.mark?_of_colon colon)] at isName
  · exact decide_eq_true ⟨by simp only [Token.span]; omega, Nat.le_refl _⟩
  · simp [others t member] at isName

/-- Each name among items lies in the name of one of them. -/
theorem accountsNames_items {ts : List Token} (grammatical : Items ts) (placed : Placed ts) :
    AccountsNames ts (((items ts).filterMap Item.attribute?).map Attribute.nameSpan) := by
  induction grammatical with
  | nil => simpa [items_nil] using .unwanted (by simp)
  | @literal v ts literal _ ih =>
      have rest := Accounts.append [v] _ within_of_decide placed
        (.unwanted (by simp [literal.isName_eq_false])) (ih placed.tail)
      simpa [items_literal literal, List.filterMap_cons, Item.attribute?] using rest
  | @assigned n e v ts name equals literal _ ih =>
      obtain ⟨value, literal'⟩ := Token.isLiteral_iff.1 literal
      have noName : ∀ t ∈ [e, v], t.isName = false := by
        simp [Token.isName_eq_false_of_mark (Token.mark?_of_equals equals), literal.isName_eq_false]
      have rest := Accounts.append [n, e, v] _ within_of_decide placed
        (accountsNames_plain noName) (ih placed.tail.tail.tail)
      simpa [items_assigned name equals literal', List.filterMap_cons, Item.attribute?] using rest
  | @spaced s c n e v ts space colon name equals literal _ ih =>
      obtain ⟨value, literal'⟩ := Token.isLiteral_iff.1 literal
      have noName : ∀ t ∈ [e, v], t.isName = false := by
        simp [Token.isName_eq_false_of_mark (Token.mark?_of_equals equals), literal.isName_eq_false]
      have rest := Accounts.append [s, c, n, e, v] _ within_of_decide placed
        (accountsNames_spaced colon (show Placed ([s, c, n, e, v] ++ ts) from placed).left noName)
        (ih placed.tail.tail.tail.tail.tail)
      simpa [items_spaced space colon name equals literal', List.filterMap_cons,
        Item.attribute?] using rest

variable {ws : List Token} {h : Head} {ps : List Problem}

/-- Each literal of a phrase is a value of its tag. -/
theorem accountsLiterals_of_phrase (phrase : Phrase ws) (placed : Placed ws)
    (read : read? ws = some (h, ps)) (start stop : Nat) (children : List Tag) :
    AccountsLiterals ws (h.toTag start stop children).valueSpans := by
  cases phrase with
  | @plain n ts name plain items =>
      obtain ⟨stop, rfl⟩ := eq_of_read? (ofWords?_plain name plain) read
      exact .append [n] [] within_of_beq_span placed
        (.unwanted (by simpa using Token.not_isLiteral_of_isName name))
        (accountsLiterals_items items placed.tail)
  | @spaced s c n ts space colon name items =>
      obtain ⟨stop, rfl⟩ := eq_of_read? (ofWords?_spaced space colon name ts) read
      exact .append [s, c, n] [] within_of_beq_span placed
        (.unwanted (by simp [Token.not_isLiteral_of_isName name,
          Token.not_isLiteral_of_isName space,
          Token.not_isLiteral_of_mark (Token.mark?_of_colon colon)]))
        (accountsLiterals_items items placed.tail.tail.tail)
  | @anonymous v ts literal items =>
      obtain ⟨value, literal'⟩ := Token.isLiteral_iff.1 literal
      obtain ⟨stop, rfl⟩ := eq_of_read? (ofWords?_anonymous literal' ts) read
      have here : AccountsLiterals [v] [value.span] := by
        refine .singleton (a := v) (b := v) (by simp) (by simp) ?_ ?_ <;>
          simp [Token.span_of_value? literal', Token.span]
      exact .append [v] [value.span] within_of_beq_span placed here
        (accountsLiterals_items items placed.tail)

/-- Each name of a phrase lies in a name of its tag. -/
theorem accountsNames_of_phrase (phrase : Phrase ws) (placed : Placed ws)
    (read : read? ws = some (h, ps)) (start stop : Nat) (children : List Tag) :
    AccountsNames ws (h.toTag start stop children).nameSpans := by
  cases phrase with
  | @plain n ts name plain items =>
      obtain ⟨stop, rfl⟩ := eq_of_read? (ofWords?_plain name plain) read
      exact .append [n] [n.span] within_of_decide placed
        (accountsNames_plain (by simp)) (accountsNames_items items placed.tail)
  | @spaced s c n ts space colon name items =>
      obtain ⟨stop, rfl⟩ := eq_of_read? (ofWords?_spaced space colon name ts) read
      exact .append [s, c, n] [⟨s.start, n.stop⟩] within_of_decide placed
        (accountsNames_spaced colon (show Placed ([s, c, n] ++ ts) from placed).left (by simp))
        (accountsNames_items items placed.tail.tail.tail)
  | @anonymous v ts literal items =>
      obtain ⟨value, literal'⟩ := Token.isLiteral_iff.1 literal
      obtain ⟨stop, rfl⟩ := eq_of_read? (ofWords?_anonymous literal' ts) read
      -- The empty place in front of the value is no name of a token.
      have here : AccountsNames [v] [⟨v.start, v.start⟩] := by
        refine .singleton (a := v) (b := v) (by simp) (by simp) ?_ ?_
        · exact ⟨Nat.le_refl _, Nat.le_add_right _ _⟩
        · simp [literal.isName_eq_false]
      exact .append [v] [⟨v.start, v.start⟩] within_of_decide placed here
        (accountsNames_items items placed.tail)

end Head

/-! ## The tree -/

/-- Where the words of each statement are accounted for, all tokens are. -/
theorem accounts_preorder {wanted : Token → Prop} {belongs : Token → Span → Bool}
    {spansOf : Tag → List Span} (within : ∀ t s, belongs t s → t.span.Within s)
    (noMark : ∀ (t : Token) a, t.kind.mark? = some a → ¬ wanted t)
    (phrases : ∀ {ws h ps}, Phrase ws → Placed ws → Head.read? ws = some (h, ps) →
      ∀ start stop children, Accounts wanted belongs ws (spansOf (h.toTag start stop children)))
    {ss : List Statement} {tags : List Tag} (reads : Statement.Reads ss tags)
    (placed : Placed (Statement.tokensOfList ss)) :
    Accounts wanted belongs (Statement.tokensOfList ss) ((Tag.preorder tags).flatMap spansOf) := by
  have mark {t : Token} (ends : t.endsStatement) : Accounts wanted belongs [t] [] := by
    obtain ⟨a, -, marked⟩ := Token.endsStatement_iff.1 ends
    exact .unwanted (by simpa using noMark t a marked)
  induction reads with
  | nil => exact .unwanted (by simp [Statement.tokensOfList])
  | separator isSeparator _ ih =>
      exact .append _ [] within placed (mark isSeparator.endsStatement) (ih placed.tail)
  | line phrase _ read _ ih =>
      exact .append _ _ within placed (phrases phrase placed.left read _ _ _) (ih placed.right)
  | @block first words h ps o c b r children tags phrase read opening closing _ _ ihBody ihRest =>
      -- From the left: the words, the opening brace, the body, the closing brace.
      rw [Statement.tokensOfList_block] at placed ⊢
      have inner := placed.right.tail
      simp only [Tag.preorder, Head.toTag, Tag.descendants, List.flatMap_cons, List.flatMap_append]
      refine .append _ _ within placed (phrases phrase placed.left read _ _ _) ?_
      refine .append [o] [] within placed.right
        (mark (by simp [Token.endsStatement, opening])) ?_
      refine .append _ _ within inner (ihBody inner.left) ?_
      exact .append [c] [] within inner.right
        (mark (by simp [Token.endsStatement, closing])) (ihRest inner.right.tail)

/-- The tags of a document, the root first. -/
def Document.tags (d : Document) : List Tag :=
  d.root :: d.root.descendants

theorem Document.flatMap_tags (text : List Char) (spansOf : Tag → List Span) :
    (Document.ofText text).tags.flatMap spansOf = spansOf (Document.ofText text).root ++
      (Tag.preorder (Document.ofText text).root.children).flatMap spansOf := by
  simp [Document.tags, Document.ofText, Tag.root, Tag.descendants]

/-- **The reader accepts exactly its grammar and loses nothing.**  A text in which
the scanner finds no problem is read without an error if and only if its tokens
form a document.  Then each literal stands for exactly one value of the tree, and
each name lies in exactly one of its names. -/
theorem Document.errorFree_iff_doc {text : List Char} (lexes : (Lexing.ofText text).problems = []) :
    (ErrorFree (Document.ofText text).problems ↔ Doc maxDepth (Lexing.ofText text).tokens) ∧
    (ErrorFree (Document.ofText text).problems →
      ∀ t ∈ (Lexing.ofText text).tokens,
        (t.IsLiteral → ((Document.ofText text).tags.flatMap Tag.valueSpans).count t.span = 1) ∧
        (t.isName → ((Document.ofText text).tags.flatMap Tag.nameSpans).countP
          (fun s => t.span.Within s) = 1)) := by
  constructor
  · rw [Document.errorFree_iff, Statement.doc_iff_clean, and_iff_right lexes]
    rfl
  · intro errorFree t member
    have reads := Document.reads errorFree
    have tokens : Statement.tokensOfList (Statement.ofText text) = (Lexing.ofText text).tokens :=
      Statement.tokens_ofTokens _
    have placed := Lexing.placed_tokens text
    rw [← tokens] at placed member
    rw [Document.flatMap_tags, Document.flatMap_tags]
    constructor
    · intro literal
      have accounts := accounts_preorder within_of_beq_span
        (fun t a marked => Token.not_isLiteral_of_mark marked)
        Head.accountsLiterals_of_phrase reads placed
      exact accounts.once t member literal
    · intro name
      have accounts := accounts_preorder within_of_decide
        (fun t a marked => by simp [Token.isName_eq_false_of_mark marked])
        Head.accountsNames_of_phrase reads placed
      have once := accounts.once t member name
      -- The root has an empty name, in which no token lies.
      have root : ¬ t.span.Within ⟨0, 0⟩ := fun within => by
        have nonempty := placed.start_lt_stop member
        have stop : t.stop ≤ 0 := within.2
        omega
      simpa [Document.ofText, Tag.root, Tag.nameSpans, List.countP_cons, root] using once

/-- A tag with a namespace, a value and a block, and in it one with an attribute. -/
theorem Document.errorFree_iff_doc_nested :
    (Lexing.ofText "a:b 1 \x7b\n c d=on\n\x7d\n".toList).problems = [] ∧
      Doc maxDepth (Lexing.ofText "a:b 1 \x7b\n c d=on\n\x7d\n".toList).tokens ∧
      ∀ t ∈ (Lexing.ofText "a:b 1 \x7b\n c d=on\n\x7d\n".toList).tokens, t.IsLiteral →
        ((Document.ofText "a:b 1 \x7b\n c d=on\n\x7d\n".toList).tags.flatMap
          Tag.valueSpans).count t.span = 1 := by
  have lexes : (Lexing.ofText "a:b 1 \x7b\n c d=on\n\x7d\n".toList).problems = [] := by cbv
  have clean : (Document.ofText "a:b 1 \x7b\n c d=on\n\x7d\n".toList).problems = [] := by cbv
  have errorFree := clean.symm ▸ errorFree_nil
  obtain ⟨accepts, accounts⟩ := Document.errorFree_iff_doc lexes
  exact ⟨lexes, accepts.1 errorFree, fun t member => (accounts errorFree t member).1⟩

end PackageRecipe.Sdl
