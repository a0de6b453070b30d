import PackageRecipe.Proofs.Sdl.Braces
import PackageRecipe.Proofs.Sdl.Lineage
import PackageRecipe.Proofs.Sdl.Origin

/-!
# How deep a document is read

The tree of a text has a bounded depth.  A block is left out of it only where the document says so.

## Main Definitions

* `Block` — a statement with a block
* `Block.Gives` — what is read from such a statement
* `Nest` — blocks of some statements, one inside the other, from the outermost on
* `BlockAt` — a token opens one of the blocks, at whatever level
* `Reached` — all statements of the blocks are read
* `ByLevel` — things that are read from statements and keep to the places of their tokens
* `Document.Drops` — a block is reported as one that is left out

## Design Notes

What becomes of a block depends on the blocks around it: `Reached` says so by their words and their
number alone.  Each of the three things that are seen of a block in the document is compared with
it by going down the nest: what is reported at the block (`nestingTooDeep_mem_iff`,
`expectedTagName_mem_iff`), the tags that are read from its content (`reached_of_mem_preorder`),
and the lineage of its own tag (`exists_lineage`).  The first two are cases of
`ByLevel.mem_iff_reached`.  All places are told apart by their tokens, because no two tokens begin
at the same place.
-/

namespace PackageRecipe.Sdl

open PackageRecipe.Text

/-! ## Blocks -/

/-- A statement with a block. -/
structure Block where
  words : List Token
  opening : Token
  body : List Statement
  closing : Option Token

namespace Block

def statement (B : Block) : Statement :=
  .block B.words B.opening B.body B.closing

/-- The first token of the statement. -/
def first (B : Block) : Token :=
  B.words.headD B.opening

/-- The statement begins with a name or a value. -/
def Named (B : Block) : Prop :=
  (Head.read? B.words).isSome

/-- The tokens of the statement up to its opening brace. -/
def own (B : Block) : List Token :=
  B.words ++ [B.opening]

/-- The tokens of the content. -/
def inner (B : Block) : List Token :=
  Statement.tokensOfList B.body

theorem first_mem_own (B : Block) : B.first ∈ B.own := by
  unfold first own
  cases B.words <;> simp

theorem opening_mem_own (B : Block) : B.opening ∈ B.own := by
  simp [own]

theorem tokens_statement (B : Block) :
    B.statement.tokens = B.own ++ (B.inner ++ B.closing.toList) := by
  simp [statement, own, inner, Statement.tokens]

/-- What is read from a statement with a block: its tags, and the problems that are found. -/
inductive Gives (textStop depth : Nat) (B : Block) : List Tag × List Problem → Prop where
  | nameless : ¬ B.Named → Gives textStop depth B
      ([], ⟨B.first.span, .expectedTagName⟩ :: unclosed B.opening B.closing)
  | deep {t : Tag} {ps : List Problem} : B.Named → maxDepth ≤ depth →
      t.nameSpan.start = B.first.start → t.children = [] → (∀ p ∈ ps, p.OfWords B.words) →
      Gives textStop depth B
        ([t], ps ++ ⟨B.opening.span, .nestingTooDeep⟩ :: unclosed B.opening B.closing)
  | read {t : Tag} {ps : List Problem} : B.Named → depth < maxDepth →
      t.nameSpan.start = B.first.start → t.children = (tagsOf textStop (depth + 1) B.body).1 →
      (∀ p ∈ ps, p.OfWords B.words) →
      Gives textStop depth B
        ([t], ps ++ (tagsOf textStop (depth + 1) B.body).2 ++ unclosed B.opening B.closing)

theorem gives_tagsOf (textStop depth : Nat) (B : Block) :
    B.Gives textStop depth (tagsOf textStop depth [B.statement]) := by
  obtain ⟨words, opening, body, closing⟩ := B
  cases words with
  | nil =>
      have nameless : ¬ Named ⟨[], opening, body, closing⟩ := by
        simp [Named, Head.read?, Head.ofWords?]
      simpa [statement, tagsOf, first] using Gives.nameless nameless
  | cons f words =>
      cases read : Head.read? (f :: words) with
      | none =>
          have nameless : ¬ Named ⟨f :: words, opening, body, closing⟩ := by simp [Named, read]
          simpa [statement, tagsOf, read, first] using Gives.nameless nameless
      | some p =>
          obtain ⟨h, ps⟩ := p
          have named : Named ⟨f :: words, opening, body, closing⟩ := by simp [Named, read]
          have start := Head.nameSpan_start read
          have raised (p : Problem) (member : p ∈ ps) := Head.ofWords_of_mem_read? read member
          by_cases shallow : depth < maxDepth
          · simp only [statement, tagsOf, read, if_pos shallow, List.append_nil]
            exact .read named shallow start rfl raised
          · simp only [statement, tagsOf, read, if_neg shallow, List.append_nil]
            exact .deep named (Nat.le_of_not_lt shallow) start rfl raised

end Block

/-- The tokens of a statement are a part of those of all statements. -/
theorem Statement.isInfix_tokens {s : Statement} {ss : List Statement} (member : s ∈ ss) :
    s.tokens <:+: tokensOfList ss := by
  obtain ⟨l, r, rfl⟩ := List.append_of_mem member
  rw [tokensOfList_append, tokensOfList, ← List.append_assoc]
  exact List.infix_append _ _ _

/-- Blocks of some statements, one inside the other, from the outermost on. -/
def Nest : List Statement → List Block → Prop
  | _, [] => True
  | ss, B :: inside => B.statement ∈ ss ∧ Nest B.body inside

/-- All blocks have names in front of them, and not too many are open. -/
def Reached (depth : Nat) (nest : List Block) : Prop :=
  (∀ B ∈ nest, B.Named) ∧ depth + nest.length ≤ maxDepth

theorem Nest.cons {s : Statement} {ss : List Statement} {nest : List Block}
    (inside : Nest ss nest) : Nest (s :: ss) nest := by
  cases nest with
  | nil => exact trivial
  | cons B nest => exact ⟨List.mem_cons_of_mem s inside.1, inside.2⟩

theorem Nest.of_append {ss : List Statement} {outer inside : List Block}
    (nest : Nest ss (outer ++ inside)) : Nest ss outer := by
  induction outer generalizing ss with
  | nil => exact trivial
  | cons B outer ih => exact ⟨nest.1, ih nest.2⟩

/-- The tokens of a block in a nest are a part of those of the statements. -/
theorem Nest.isInfix_tokens {ss : List Statement} {outer : List Block} {B : Block}
    (nest : Nest ss (outer ++ [B])) : B.statement.tokens <:+: Statement.tokensOfList ss := by
  induction outer generalizing ss with
  | nil => exact Statement.isInfix_tokens nest.1
  | cons C outer ih =>
      have below : B.statement.tokens <:+: C.inner := ih nest.2
      have inside : C.inner <:+: C.statement.tokens := by
        rw [C.tokens_statement, ← List.append_assoc]
        exact List.infix_append _ _ _
      exact below.trans (inside.trans (Statement.isInfix_tokens nest.1))

/-- A token opens one of the blocks in some statements. -/
def BlockAt (ss : List Statement) (o : Token) : Prop :=
  ∃ outer B, Nest ss (outer ++ [B]) ∧ B.opening = o

namespace BlockAt

variable {s : Statement} {b r : List Statement} {ws : List Token} {o t : Token} {c : Option Token}

theorem cons (behind : BlockAt r o) : BlockAt (s :: r) o := by
  obtain ⟨outer, B, nest, opening⟩ := behind
  exact ⟨outer, B, nest.cons, opening⟩

theorem head : BlockAt (.block ws o b c :: r) o :=
  ⟨[], ⟨ws, o, b, c⟩, ⟨List.mem_cons_self, trivial⟩, rfl⟩

theorem inner (inside : BlockAt b t) : BlockAt (.block ws o b c :: r) t := by
  obtain ⟨outer, B, nest, opening⟩ := inside
  exact ⟨⟨ws, o, b, c⟩ :: outer, B, ⟨List.mem_cons_self, nest⟩, opening⟩

end BlockAt

/-- **Every opening brace** opens a block. -/
theorem Statement.Grouped.blockAt {ss : List Statement} (grouped : Grouped ss) {o : Token}
    (member : o ∈ tokensOfList ss) (kind : o.kind = .leftBrace) : BlockAt ss o := by
  have notWord {ws : List Token} (words : Words ws) : o ∉ ws := by
    intro word
    simpa [Token.endsStatement, kind] using words o word
  have notSeparator : ¬ o.IsSeparator := by simp [Token.IsSeparator, kind]
  induction grouped with
  | nil => simp [tokensOfList] at member
  | separator separator _ ih =>
      simp only [tokensOfList, tokens, List.singleton_append, List.mem_cons] at member
      rcases member with rfl | behind
      · exact absurd separator notSeparator
      · exact (ih behind).cons
  | stray brace _ ih =>
      simp only [tokensOfList, tokens, List.singleton_append, List.mem_cons] at member
      rcases member with rfl | behind
      · simp [brace] at kind
      · exact (ih behind).cons
  | line _ words _ _ ih =>
      simp only [tokensOfList, tokens, List.mem_append] at member
      exact (ih (member.resolve_left (notWord words))).cons
  | @block ws opening b r c words _ _ closing _ body ih =>
      have notClosing : o ∉ c.toList := by
        intro last
        simpa [kind] using closing o (by simpa using last)
      simp only [tokensOfList, tokens, List.mem_append, List.mem_cons, notWord words, notClosing,
        false_or, or_false] at member
      rcases member with (rfl | inside) | behind
      · exact .head
      · exact (body inside).inner
      · exact (ih behind).cons

theorem reached_cons_iff {depth : Nat} {B : Block} {nest : List Block} :
    Reached depth (B :: nest) ↔ B.Named ∧ depth < maxDepth ∧ Reached (depth + 1) nest := by
  simp only [Reached, List.forall_mem_cons, List.length_cons]
  constructor
  · rintro ⟨⟨named, rest⟩, room⟩
    exact ⟨named, by omega, rest, by omega⟩
  · rintro ⟨named, shallow, rest, room⟩
    exact ⟨⟨named, rest⟩, by omega⟩

theorem reached_concat_iff {depth : Nat} {B : Block} {outer : List Block} :
    Reached depth (outer ++ [B]) ↔
      Reached depth outer ∧ B.Named ∧ depth + outer.length < maxDepth := by
  simp only [Reached, List.forall_mem_append, List.forall_mem_singleton, List.length_append,
    List.length_singleton]
  constructor
  · rintro ⟨⟨rest, named⟩, room⟩
    exact ⟨⟨rest, by omega⟩, named, by omega⟩
  · rintro ⟨⟨rest, -⟩, named, shallow⟩
    exact ⟨⟨rest, named⟩, by omega⟩

/-! ## What is read level by level -/

/-- No token of the one part begins where one of the other does. -/
theorem Placed.start_ne {ts us : List Token} (placed : Placed (ts ++ us)) {t u : Token}
    (left : t ∈ ts) (right : u ∈ us) : t.start ≠ u.start := by
  have nonempty := placed.start_lt_stop (List.mem_append_left us left)
  have apart := placed.stop_le_start left right
  omega

/-- What is read from statements and begins at their tokens.  The content of a block is read
one level further down, if it is read. -/
structure ByLevel {α : Type} (f : Nat → List Statement → List α) (start : α → Nat) : Prop where
  append : ∀ depth a b, f depth (a ++ b) = f depth a ++ f depth b
  starts : ∀ {depth ss x}, x ∈ f depth ss → ∃ t ∈ Statement.tokensOfList ss, start x = t.start
  inner : ∀ {depth} {B : Block} {x t}, Placed B.statement.tokens → t ∈ B.inner →
    start x = t.start → (x ∈ f depth [B.statement] ↔
      B.Named ∧ depth < maxDepth ∧ x ∈ f (depth + 1) B.body)

namespace ByLevel

variable {α : Type} {f : Nat → List Statement → List α} {start : α → Nat} {depth : Nat}
  {ss : List Statement} {x : α} {t : Token}

/-- What begins inside of a statement is read from it. -/
theorem mem_iff (level : ByLevel f start) (placed : Placed (Statement.tokensOfList ss))
    {s : Statement} (member : s ∈ ss) (inside : t ∈ s.tokens) (begins : start x = t.start) :
    x ∈ f depth ss ↔ x ∈ f depth [s] := by
  obtain ⟨l, r, rfl⟩ := List.append_of_mem member
  rw [Statement.tokensOfList_append, Statement.tokensOfList] at placed
  have behind : f depth (s :: r) = f depth [s] ++ f depth r := level.append depth [s] r
  rw [level.append, behind, List.mem_append, List.mem_append]
  have notLeft : x ∉ f depth l := by
    intro found
    obtain ⟨u, left, same⟩ := level.starts found
    exact placed.start_ne left (List.mem_append_left _ inside) (same ▸ begins)
  have notRight : x ∉ f depth r := by
    intro found
    obtain ⟨u, right, same⟩ := level.starts found
    exact placed.right.start_ne inside right (begins ▸ same)
  rw [or_iff_right notLeft, or_iff_left notRight]

/-- **What is read at a block** is what is read from it alone, if the blocks around it are
read. -/
theorem mem_iff_reached (level : ByLevel f start) {outer : List Block} {B : Block}
    (placed : Placed (Statement.tokensOfList ss)) (nest : Nest ss (outer ++ [B]))
    (shallow : depth ≤ maxDepth) (inside : t ∈ B.statement.tokens) (begins : start x = t.start) :
    x ∈ f depth ss ↔ Reached depth outer ∧ x ∈ f (depth + outer.length) [B.statement] := by
  induction outer generalizing ss depth with
  | nil =>
      have reached : Reached depth [] := ⟨by simp, shallow⟩
      rw [level.mem_iff placed nest.1 inside begins, and_iff_right reached]
      rfl
  | cons C outer ih =>
      have part := placed.part (Statement.isInfix_tokens nest.1)
      have below : t ∈ C.inner := nest.2.isInfix_tokens.subset inside
      have here : t ∈ C.statement.tokens := by
        rw [C.tokens_statement]
        exact List.mem_append_right _ (List.mem_append_left _ below)
      have placedBelow : Placed C.inner := by
        rw [C.tokens_statement] at part
        exact part.right.left
      have length : depth + (C :: outer).length = depth + 1 + outer.length := by
        rw [List.length_cons]
        omega
      rw [level.mem_iff placed nest.1 here begins, level.inner part below begins,
        reached_cons_iff, length, and_assoc, and_assoc]
      refine and_congr_right fun _ => and_congr_right fun deeper => ?_
      exact ih placedBelow nest.2 deeper

end ByLevel

/-! ## Tags and problems by level -/

section Reading

variable {textStop depth : Nat} {ss : List Statement}

/-- A tag begins with a token. -/
theorem exists_start_of_mem_preorder {t : Tag}
    (member : t ∈ Tag.preorder (tagsOf textStop depth ss).1) :
    ∃ u ∈ Statement.tokensOfList ss, t.nameSpan.start = u.start := by
  obtain ⟨h, ps, start, stop, children, ⟨ws, part, read⟩, rfl⟩ :=
    (yields_tagsOf textStop depth ss).tags t member
  cases ws with
  | nil => simp [Head.read?, Head.ofWords?] at read
  | cons first words =>
      exact ⟨first, part.subset List.mem_cons_self, Head.nameSpan_start read⟩

/-- A problem begins with a token. -/
theorem exists_start_of_mem_problems {p : Problem} (member : p ∈ (tagsOf textStop depth ss).2) :
    ∃ u ∈ Statement.tokensOfList ss, p.span.start = u.start := by
  rcases (yields_tagsOf textStop depth ss).problems p member with
    ⟨u, inside, same⟩ | ⟨h, ps, ⟨ws, part, read⟩, raised⟩
  · exact ⟨u, inside, by rw [same]; rfl⟩
  · obtain ⟨u, inside, same⟩ := (Head.ofWords_of_mem_read? read raised).start
    exact ⟨u, part.subset inside, same⟩

theorem mem_unclosed {o : Token} {c : Option Token} {p : Problem} (member : p ∈ unclosed o c) :
    p = ⟨o.span, .missingClosingBrace⟩ := by
  cases c with
  | none => exact List.mem_singleton.1 member
  | some c => simp [unclosed] at member

/-- The causes of a block that is left out: its words do not raise them. -/
theorem cut_notMem_words {ws : List Token} {ps : List Problem} (raised : ∀ p ∈ ps, p.OfWords ws)
    {c : Cause} (cut : c = .nestingTooDeep ∨ c = .expectedTagName) (s : Span) : ⟨s, c⟩ ∉ ps := by
  intro member
  rcases cut with rfl | rfl <;> cases raised _ member

theorem cut_notMem_unclosed {c : Cause} (cut : c = .nestingTooDeep ∨ c = .expectedTagName)
    (s : Span) (o : Token) (closing : Option Token) : ⟨s, c⟩ ∉ unclosed o closing := by
  intro member
  have same := congrArg Problem.cause (mem_unclosed member)
  rcases cut with rfl | rfl <;> cases same

/-- The tags of a text are read level by level. -/
theorem byLevel_tags (textStop : Nat) :
    ByLevel (fun depth ss => Tag.preorder (tagsOf textStop depth ss).1) (·.nameSpan.start) where
  append depth a b := by rw [tagsOf_append, Tag.preorder_append]
  starts := exists_start_of_mem_preorder
  inner := by
    intro depth B x t placed inside begins
    rw [B.tokens_statement] at placed
    -- The tag of the block itself begins in front of its content.
    have notOwn {u : Tag} (start : u.nameSpan.start = B.first.start) : x ≠ u := by
      rintro rfl
      exact placed.start_ne B.first_mem_own (List.mem_append_left _ inside) (start ▸ begins)
    have gives := B.gives_tagsOf textStop depth
    generalize tagsOf textStop depth [B.statement] = result at gives ⊢
    cases gives with
    | nameless nameless => simp [Tag.preorder, nameless]
    | deep named full start none _ =>
        simp [Tag.preorder, Tag.descendants_eq, none, notOwn start, Nat.not_lt_of_le full]
    | read named shallow start children _ =>
        simp [Tag.preorder, Tag.descendants_eq, children, notOwn start, named, shallow]

/-- The problems of a text are found level by level. -/
theorem byLevel_problems (textStop : Nat) :
    ByLevel (fun depth ss => (tagsOf textStop depth ss).2) (·.span.start) where
  append depth a b := by rw [tagsOf_append]
  starts := exists_start_of_mem_problems
  inner := by
    intro depth B p t placed inside begins
    rw [B.tokens_statement] at placed
    have notOwn (u : Token) (own : u ∈ B.own) (c : Cause) : p ≠ ⟨u.span, c⟩ := by
      rintro rfl
      exact placed.start_ne own (List.mem_append_left _ inside) begins
    have notWords {ps : List Problem} (raised : ∀ q ∈ ps, q.OfWords B.words) : p ∉ ps := by
      intro member
      obtain ⟨u, word, start⟩ := (raised p member).start
      exact placed.start_ne (List.mem_append_left _ word) (List.mem_append_left _ inside)
        (start ▸ begins)
    have notClosed : p ∉ unclosed B.opening B.closing := fun member =>
      notOwn B.opening B.opening_mem_own _ (mem_unclosed member)
    have notFirst := notOwn B.first B.first_mem_own
    have notOpening := notOwn B.opening B.opening_mem_own
    have gives := B.gives_tagsOf textStop depth
    generalize tagsOf textStop depth [B.statement] = result at gives ⊢
    cases gives with
    | nameless nameless => simp [nameless, notFirst, notClosed]
    | deep named full _ _ raised =>
        simp [notWords raised, notOpening, notClosed, Nat.not_lt_of_le full]
    | read named shallow _ _ raised =>
        simp [notWords raised, notClosed, named, shallow]

/-- **The reports at a block.**  It is reported for its first token if it has no name, and for its
opening brace if it has one and no more blocks may be open. -/
theorem cut_mem_iff {B : Block} (placed : Placed B.statement.tokens) {u : Token} (own : u ∈ B.own)
    {c : Cause} (cut : c = .nestingTooDeep ∨ c = .expectedTagName) :
    ⟨u.span, c⟩ ∈ (tagsOf textStop depth [B.statement]).2 ↔
      (¬ B.Named ∧ u.span = B.first.span ∧ c = .expectedTagName) ∨
      B.Named ∧ maxDepth ≤ depth ∧ u.span = B.opening.span ∧ c = .nestingTooDeep := by
  rw [B.tokens_statement] at placed
  have notInner : ⟨u.span, c⟩ ∉ (tagsOf textStop (depth + 1) B.body).2 := by
    intro member
    obtain ⟨t, inside, start⟩ := exists_start_of_mem_problems member
    exact placed.start_ne own (List.mem_append_left _ inside) start
  have notClosed := cut_notMem_unclosed cut u.span B.opening B.closing
  have gives := B.gives_tagsOf textStop depth
  generalize tagsOf textStop depth [B.statement] = result at gives ⊢
  cases gives with
  | nameless nameless => simp [nameless, notClosed]
  | deep named full _ _ raised => simp [named, full, cut_notMem_words raised cut, notClosed]
  | read named shallow _ _ raised =>
      simp [named, Nat.not_le_of_lt shallow, cut_notMem_words raised cut, notInner, notClosed]

/-- **A report of a block as too deep** stands at an opening brace. -/
theorem blockAt_of_nestingTooDeep {s : Span} (grouped : Statement.Grouped ss)
    (member : ⟨s, .nestingTooDeep⟩ ∈ (tagsOf textStop depth ss).2) :
    ∃ o, BlockAt ss o ∧ o.span = s := by
  have notWords {ws : List Token} {ps : List Problem} (raised : ∀ p ∈ ps, p.OfWords ws) :
      ⟨s, .nestingTooDeep⟩ ∉ ps := cut_notMem_words raised (.inl rfl) s
  induction grouped generalizing depth with
  | nil => simp [tagsOf] at member
  | separator _ _ ih =>
      obtain ⟨o, block, place⟩ := ih (by simpa [tagsOf] using member)
      exact ⟨o, block.cons, place⟩
  | stray _ _ ih =>
      obtain ⟨o, block, place⟩ := ih (by simpa [tagsOf] using member)
      exact ⟨o, block.cons, place⟩
  | @line ws r _ _ _ _ ih =>
      have here : ⟨s, .nestingTooDeep⟩ ∉ (tagsOf textStop depth [.line ws]).2 := by
        rcases tagsOf_line_cases textStop depth ws with
          given | ⟨first, _, given⟩ | ⟨first, words, h, ps, rfl, read, given⟩
        · simp [given]
        · simp [given]
        · simpa [given] using notWords fun p => Head.ofWords_of_mem_read? read
      obtain ⟨o, block, place⟩ := ih ((mem_tagsOf_cons member).resolve_left here)
      exact ⟨o, block.cons, place⟩
  | @block ws opening b r c _ _ _ _ _ body ih =>
      rcases mem_tagsOf_cons member with here | behind
      · have notClosed := cut_notMem_unclosed (.inl rfl) s opening c
        have gives := Block.gives_tagsOf textStop depth ⟨ws, opening, b, c⟩
        simp only [Block.statement] at gives
        generalize tagsOf textStop depth [.block ws opening b c] = result at gives here
        cases gives with
        | nameless _ => simp [notClosed] at here
        | deep _ _ _ _ raised =>
            simp only [List.mem_append, List.mem_cons, notWords raised, notClosed, false_or,
              or_false, Problem.mk.injEq, and_true] at here
            exact ⟨opening, .head, here.symm⟩
        | read _ _ _ _ raised =>
            simp only [List.mem_append, notWords raised, notClosed, false_or, or_false] at here
            obtain ⟨o, block, place⟩ := body here
            exact ⟨o, block.inner, place⟩
      · obtain ⟨o, block, place⟩ := ih behind
        exact ⟨o, block.cons, place⟩

section Nested

variable {outer : List Block} {B : Block} (placed : Placed (Statement.tokensOfList ss))
  (nest : Nest ss (outer ++ [B])) (shallow : depth ≤ maxDepth)

include placed nest shallow

theorem nestingTooDeep_mem_iff :
    ⟨B.opening.span, .nestingTooDeep⟩ ∈ (tagsOf textStop depth ss).2 ↔
      Reached depth outer ∧ B.Named ∧ depth + outer.length = maxDepth := by
  have inside : B.opening ∈ B.statement.tokens := by
    rw [B.tokens_statement]
    exact List.mem_append_left _ B.opening_mem_own
  rw [(byLevel_problems textStop).mem_iff_reached placed nest shallow inside rfl,
    cut_mem_iff (placed.part nest.isInfix_tokens) B.opening_mem_own (.inl rfl)]
  refine and_congr_right fun reached => ?_
  have room := reached.2
  simp only [reduceCtorEq, and_false, false_or, and_true]
  exact and_congr_right fun _ => ⟨fun full => Nat.le_antisymm room full, Nat.le_of_eq ∘ Eq.symm⟩

theorem expectedTagName_mem_iff :
    ⟨B.first.span, .expectedTagName⟩ ∈ (tagsOf textStop depth ss).2 ↔
      Reached depth outer ∧ ¬ B.Named := by
  have inside : B.first ∈ B.statement.tokens := by
    rw [B.tokens_statement]
    exact List.mem_append_left _ B.first_mem_own
  rw [(byLevel_problems textStop).mem_iff_reached placed nest shallow inside rfl,
    cut_mem_iff (placed.part nest.isInfix_tokens) B.first_mem_own (.inr rfl)]
  simp

/-- A tag that begins inside of a block is only there if the block is read. -/
theorem reached_of_mem_preorder {x : Tag} {t : Token} (inside : t ∈ B.inner)
    (begins : x.nameSpan.start = t.start)
    (member : x ∈ Tag.preorder (tagsOf textStop depth ss).1) : Reached depth (outer ++ [B]) := by
  have level := byLevel_tags textStop
  have here : t ∈ B.statement.tokens := by
    rw [B.tokens_statement]
    exact List.mem_append_right _ (List.mem_append_left _ inside)
  obtain ⟨reached, found⟩ := (level.mem_iff_reached placed nest shallow here begins).1 member
  obtain ⟨named, room, -⟩ := (level.inner (placed.part nest.isInfix_tokens) inside begins).1 found
  exact reached_concat_iff.2 ⟨reached, named, room⟩

end Nested

/-- The tag of a block that is read. -/
theorem exists_tag (textStop : Nat) {B : Block} (member : B.statement ∈ ss) (named : B.Named)
    (shallow : depth < maxDepth) : ∃ t ∈ (tagsOf textStop depth ss).1,
      t.nameSpan.start = B.first.start ∧ t.children = (tagsOf textStop (depth + 1) B.body).1 := by
  obtain ⟨l, r, rfl⟩ := List.append_of_mem member
  have gives := B.gives_tagsOf textStop depth
  rw [tagsOf_append, tagsOf_cons_append]
  generalize tagsOf textStop depth [B.statement] = result at gives ⊢
  cases gives with
  | nameless nameless => exact absurd named nameless
  | deep _ full _ _ _ => omega
  | @read t ps _ _ start children _ => exact ⟨t, by simp, start, children⟩

/-- **The tag of a block that is read** stands below the tags of the blocks around it, and holds
what is read from the content of the block. -/
theorem exists_lineage (textStop : Nat) {outer : List Block} {B : Block}
    (nest : Nest ss (outer ++ [B])) (reached : Reached depth (outer ++ [B])) :
    ∃ line t, line ++ [t] ∈ Tag.lineages (tagsOf textStop depth ss).1 ∧
      List.Forall₂ (fun tag C => tag.nameSpan.start = C.first.start) (line ++ [t]) (outer ++ [B]) ∧
      t.children = (tagsOf textStop (depth + (outer ++ [B]).length) B.body).1 := by
  induction outer generalizing ss depth with
  | nil =>
      obtain ⟨named, shallow, -⟩ := reached_cons_iff.1 reached
      obtain ⟨t, member, start, children⟩ := exists_tag textStop nest.1 named shallow
      have lineage : [t] ∈ Tag.lineages (tagsOf textStop depth ss).1 :=
        Tag.cons_mem_lineages.2 ⟨member, List.mem_cons_self⟩
      exact ⟨[], t, lineage, .cons start .nil, children⟩
  | cons C outer ih =>
      obtain ⟨named, shallow, rest⟩ := reached_cons_iff.1 reached
      obtain ⟨u, member, start, below⟩ := exists_tag textStop nest.1 named shallow
      obtain ⟨line, t, lineage, starts, children⟩ := ih nest.2 rest
      refine ⟨u :: line, t, ?_, .cons start starts, ?_⟩
      · rw [List.cons_append, Tag.cons_mem_lineages, below]
        exact ⟨member, List.mem_cons_of_mem _ lineage⟩
      · rw [children, List.cons_append, List.length_cons, Nat.add_right_comm, Nat.add_assoc]

/-- The lineages of a tag are one longer than those below it. -/
theorem length_le_of_below {t : Tag} (shallow : depth ≤ maxDepth)
    (below : ∀ line ∈ Tag.lineages t.children, depth + 1 + line.length ≤ maxDepth + 1) :
    ∀ line ∈ Tag.lineages [t], depth + line.length ≤ maxDepth + 1 := by
  intro line member
  rw [Tag.lineages_cons, Tag.lineages, List.append_nil] at member
  obtain ⟨rest, found, rfl⟩ := List.mem_map.1 member
  rw [List.length_cons]
  rcases List.mem_cons.1 found with rfl | found
  · simpa using shallow
  · have := below rest found
    omega

mutual

/-- The lineages of one statement. -/
theorem length_le_of_mem_singleton (textStop : Nat) {depth : Nat} (shallow : depth ≤ maxDepth) :
    ∀ s : Statement, ∀ line ∈ Tag.lineages (tagsOf textStop depth [s]).1,
      depth + line.length ≤ maxDepth + 1
  | .separator t | .stray t => by simp [tagsOf, Tag.lineages]
  | .line ws => by
      rcases tagsOf_line_cases textStop depth ws with
        given | ⟨first, _, given⟩ | ⟨first, words, h, ps, rfl, read, given⟩
      · simp [given, Tag.lineages]
      · simp [given, Tag.lineages]
      · rw [given]
        exact length_le_of_below shallow (by simp [Head.toTag, Tag.lineages])
  | .block ws o b c => by
      have gives := Block.gives_tagsOf textStop depth ⟨ws, o, b, c⟩
      change ∀ line ∈ Tag.lineages (tagsOf textStop depth [Block.statement ⟨ws, o, b, c⟩]).1, _
      generalize tagsOf textStop depth [Block.statement ⟨ws, o, b, c⟩] = result at gives ⊢
      cases gives with
      | nameless _ => simp [Tag.lineages]
      | deep _ _ _ none _ => exact length_le_of_below shallow (by simp [none, Tag.lineages])
      | read _ room _ children _ =>
          refine length_le_of_below shallow ?_
          rw [children]
          exact length_le_of_mem_lineages textStop room b

/-- **A lineage is not longer** than the blocks that may be open, and a tag without content. -/
theorem length_le_of_mem_lineages (textStop : Nat) {depth : Nat} (shallow : depth ≤ maxDepth) :
    ∀ ss : List Statement, ∀ line ∈ Tag.lineages (tagsOf textStop depth ss).1,
      depth + line.length ≤ maxDepth + 1
  | [], line, member => by simp [tagsOf, Tag.lineages] at member
  | s :: r, line, member => by
      rw [tagsOf_cons_append, Tag.lineages_eq_flatMap, List.flatMap_append, List.mem_append,
        ← Tag.lineages_eq_flatMap, ← Tag.lineages_eq_flatMap] at member
      rcases member with member | member
      · exact length_le_of_mem_singleton textStop shallow s line member
      · exact length_le_of_mem_lineages textStop shallow r line member

end

end Reading

/-! ## Blocks that are left out of a document -/

/-- A message that no other cause has, and that the scanner does not use, is found where the
statements raise it. -/
theorem Document.mem_reported_iff {text : List Char} (cause : Cause) (own : cause.hasOwnMessage)
    (reader : ¬ cause.OfPiece) {s : Span} :
    s ∈ (ofText text).reported cause.message ↔ ⟨s, cause⟩ ∈ (tagsOfText text).2 := by
  have scanner : ⟨s, cause⟩ ∉ (Lexing.ofText text).problems := fun member =>
    reader (Piece.of_mem_problems member).1
  rw [reported_eq text fun p _ => Cause.message_eq_iff own, List.mem_map]
  constructor
  · rintro ⟨⟨place, c⟩, member, rfl⟩
    obtain ⟨found, same⟩ := List.mem_filter.1 member
    obtain rfl : c = cause := by simpa using same
    rw [ofText_eq, Problem.mem_sort, List.mem_append] at found
    exact found.resolve_left scanner
  · intro raised
    refine ⟨⟨s, cause⟩, List.mem_filter.2 ⟨?_, by simp⟩, rfl⟩
    rw [ofText_eq, Problem.mem_sort]
    exact List.mem_append_right _ raised

/-- The document reports that the content of a block is left out: the block is too deep, or it
belongs to a statement without a name. -/
def Document.Drops (d : Document) (B : Block) : Prop :=
  B.opening.span ∈ d.reported "Nesting too deep" ∨ B.first.span ∈ d.reported "Expected a tag name"

namespace Document

variable {text : List Char} {outer nest : List Block} {B : Block}

theorem placed_statements (text : List Char) :
    Placed (Statement.tokensOfList (Statement.ofText text)) := by
  rw [Statement.ofText, Statement.tokens_ofTokens]
  exact Lexing.placed_tokens text

theorem deep_iff (inside : Nest (Statement.ofText text) (outer ++ [B])) :
    B.opening.span ∈ (ofText text).reported "Nesting too deep" ↔
      Reached 0 outer ∧ B.Named ∧ outer.length = maxDepth := by
  rw [← Nat.zero_add outer.length]
  refine (mem_reported_iff .nestingTooDeep rfl (by rintro ⟨⟩)).trans ?_
  exact nestingTooDeep_mem_iff (placed_statements text) inside (Nat.zero_le _)

/-- A block is reported exactly if the blocks around it are read and it is not. -/
theorem drops_iff (inside : Nest (Statement.ofText text) (outer ++ [B])) :
    (ofText text).Drops B ↔ Reached 0 outer ∧ ¬ Reached 0 (outer ++ [B]) := by
  have nameless : B.first.span ∈ (ofText text).reported "Expected a tag name" ↔
      Reached 0 outer ∧ ¬ B.Named := by
    refine (mem_reported_iff .expectedTagName rfl (by rintro ⟨⟩)).trans ?_
    exact expectedTagName_mem_iff (placed_statements text) inside (Nat.zero_le _)
  rw [Drops, deep_iff inside, nameless, ← and_or_left, reached_concat_iff]
  refine and_congr_right fun reached => ?_
  have room := reached.2
  rw [Nat.zero_add] at room ⊢
  by_cases named : B.Named
  · simp only [reached, named, true_and, not_true, or_false, not_lt]
    omega
  · simp [named]

/-- No block of a nest is reported exactly if all are read. -/
theorem forall_not_drops_iff (inside : Nest (Statement.ofText text) nest) :
    (∀ C ∈ nest, ¬ (ofText text).Drops C) ↔ Reached 0 nest := by
  induction nest using List.reverseRecOn with
  | nil => simp [Reached]
  | append_singleton outer B ih =>
      rw [List.forall_mem_append, ih inside.of_append, List.forall_mem_singleton,
        drops_iff inside]
      constructor
      · rintro ⟨reached, kept⟩
        by_contra out
        exact kept ⟨reached, out⟩
      · intro reached
        exact ⟨(reached_concat_iff.1 reached).1, fun ⟨_, out⟩ => out reached⟩

end Document

/-- **The tree of a text is bounded, and cut off only with a report.**  No tag stands more than one
level below the blocks that may be open.  Every opening brace opens a block, and a report of a
block as too deep stands at such a brace.  Consider a block `B` of the text and the blocks `outer`
around it.  It is reported as too deep if it ends the head of a statement while as many blocks are
open as may be, and only then.  If one of the blocks is reported, no tag is read from the content
of `B`.  Otherwise there are no more blocks than may be open, and what is read from the content are
the children of a tag that stands, with the tags of the blocks around it, where the blocks do. -/
theorem Document.depth_bounded (text : List Char) :
    let d := Document.ofText text
    (∀ line ∈ Tag.lineages d.root.children, line.length ≤ maxDepth + 1) ∧
    (∀ o ∈ (Lexing.ofText text).tokens, o.kind = .leftBrace → BlockAt (Statement.ofText text) o) ∧
    (∀ s ∈ d.reported "Nesting too deep", ∃ o, BlockAt (Statement.ofText text) o ∧ o.span = s) ∧
    ∀ outer B, Nest (Statement.ofText text) (outer ++ [B]) →
      (B.opening.span ∈ d.reported "Nesting too deep" ↔
        B.Named ∧ outer.length = maxDepth ∧ ∀ C ∈ outer, ¬ d.Drops C) ∧
      ((∃ C ∈ outer ++ [B], d.Drops C) →
        ∀ tag ∈ Tag.preorder d.root.children, ∀ t ∈ B.inner, tag.nameSpan.start ≠ t.start) ∧
      ((∀ C ∈ outer ++ [B], ¬ d.Drops C) →
        (outer ++ [B]).length ≤ maxDepth ∧
        ∃ line tag, line ++ [tag] ∈ Tag.lineages d.root.children ∧
          List.Forall₂ (fun tag C => tag.nameSpan.start = C.first.start)
            (line ++ [tag]) (outer ++ [B]) ∧
          tag.children = (tagsOf (textStop text) (outer ++ [B]).length B.body).1) := by
  intro d
  have grouped := Statement.grouped_ofTokens (Lexing.ofText text).tokens
  refine ⟨?_, ?_, ?_, ?_⟩
  · intro line member
    simpa using length_le_of_mem_lineages (textStop text) (Nat.zero_le _) _ line member
  · intro o member kind
    exact grouped.blockAt (by rwa [Statement.tokens_ofTokens]) kind
  · intro s member
    have raised := (mem_reported_iff .nestingTooDeep rfl (by rintro ⟨⟩)).1 member
    exact blockAt_of_nestingTooDeep grouped raised
  · intro outer B inside
    have kept := forall_not_drops_iff inside
    refine ⟨?_, ?_, ?_⟩
    · rw [deep_iff inside, forall_not_drops_iff inside.of_append]
      tauto
    · rintro ⟨C, member, dropped⟩ tag found t content begins
      have reached := reached_of_mem_preorder (placed_statements text) inside (Nat.zero_le _)
        content begins found
      exact kept.2 reached C member dropped
    · intro none
      have reached := kept.1 none
      have lineage := exists_lineage (textStop text) inside reached
      have room := reached.2
      rw [Nat.zero_add] at lineage room
      exact ⟨room, lineage⟩

/-- The block of a statement without a name is reported, and nothing is read from its content. -/
theorem Document.depth_bounded_nameless :
    let text := "a \x7b= b \x7bc\x7d d\x7d".toList
    ∃ A B, Nest (Statement.ofText text) ([A] ++ [B]) ∧ (ofText text).Drops B ∧
      ∀ tag ∈ Tag.preorder (ofText text).root.children, ∀ t ∈ B.inner,
        tag.nameSpan.start ≠ t.start := by
  intro text
  let B : Block := ⟨[⟨.equals, ['='], [], 3⟩, ⟨.identifier, ['b'], [' '], 5⟩],
    ⟨.leftBrace, ['\x7b'], [' '], 7⟩, [.line [⟨.identifier, ['c'], [], 8⟩]],
    some ⟨.rightBrace, ['\x7d'], [], 9⟩⟩
  let A : Block := ⟨[⟨.identifier, ['a'], [], 0⟩], ⟨.leftBrace, ['\x7b'], [' '], 2⟩,
    [B.statement, .line [⟨.identifier, ['d'], [' '], 11⟩]], some ⟨.rightBrace, ['\x7d'], [], 12⟩⟩
  have statements : Statement.ofText "a \x7b= b \x7bc\x7d d\x7d".toList = [A.statement] := by cbv
  have inside : Nest (Statement.ofText text) ([A] ++ [B]) := by
    rw [statements]
    exact ⟨List.mem_singleton_self _, List.mem_cons_self, trivial⟩
  have named : A.Named := by cbv
  have nameless : ¬ B.Named :=
    Bool.eq_false_iff.1 (show (Head.read? B.words).isSome = false by cbv)
  have dropped : (ofText text).Drops B := by
    rw [drops_iff inside, reached_concat_iff, and_iff_right]
    · exact fun reached => nameless reached.2.1
    · exact ⟨by simpa using named, by decide⟩
  have missing := ((depth_bounded text).2.2.2 [A] B inside).2.1
  exact ⟨A, B, inside, dropped, missing ⟨B, by simp, dropped⟩⟩

end PackageRecipe.Sdl
