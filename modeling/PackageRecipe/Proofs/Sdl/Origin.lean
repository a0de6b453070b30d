import PackageRecipe.Proofs.Sdl.Containment

/-!
# What tags and problems are read from

Each tag of a text is read from words that stand together in the text.  A problem of the
statements is raised by such words, or it stands at a token.

## Main Definitions

* `Head.ReadIn` — a tag without its block that is read from words among some tokens
* `Yields` — tags and problems that come from words and tokens among the given ones

## Design Notes

What holds of all tags and problems of a text is thus shown for the words of one statement
(`Yields.tags`, `Yields.problems`), and these are in order and nowhere empty because all
tokens are.  The order of the tags themselves is taken from their places
(`Tag.Arranged.pairwise_preorder`): what a tag holds stands in front of all tags behind it,
so that no two tags share a part (`Document.eq_of_shared_part`).
-/

namespace PackageRecipe.Sdl

open PackageRecipe.Text

/-! ## Words and what is read from them -/

/-- Some words that stand together are read as a tag without its block, with its problems. -/
def Head.ReadIn (ts : List Token) (h : Head) (ps : List Problem) : Prop :=
  ∃ ws, ws <:+: ts ∧ Head.read? ws = some (h, ps)

/-- Tags and problems that come from the given tokens. -/
structure Yields (ts : List Token) (tags : List Tag) (problems : List Problem) : Prop where
  tags : ∀ t ∈ Tag.preorder tags, ∃ h ps start stop children,
    Head.ReadIn ts h ps ∧ t = h.toTag start stop children
  problems : ∀ p ∈ problems, (∃ t ∈ ts, p.span = t.span) ∨ ∃ h ps, Head.ReadIn ts h ps ∧ p ∈ ps

namespace Yields

variable {ts us : List Token} {tags tags' : List Tag} {problems problems' : List Problem}

theorem mono (yields : Yields ts tags problems) (part : ts <:+: us) :
    Yields us tags problems where
  tags t member := by
    obtain ⟨h, ps, start, stop, children, ⟨ws, inside, read⟩, same⟩ := yields.tags t member
    exact ⟨h, ps, start, stop, children, ⟨ws, inside.trans part, read⟩, same⟩
  problems p member := by
    rcases yields.problems p member with ⟨t, inside, same⟩ | ⟨h, ps, ⟨ws, inside, read⟩, raised⟩
    · exact .inl ⟨t, part.subset inside, same⟩
    · exact .inr ⟨h, ps, ⟨ws, inside.trans part, read⟩, raised⟩

theorem append (left : Yields ts tags problems) (right : Yields ts tags' problems') :
    Yields ts (tags ++ tags') (problems ++ problems') where
  tags t member := by
    rw [Tag.preorder_append] at member
    exact (List.mem_append.1 member).elim (left.tags t) (right.tags t)
  problems p member := (List.mem_append.1 member).elim (left.problems p) (right.problems p)

theorem of_tokens (each : ∀ p ∈ problems, ∃ t ∈ ts, p.span = t.span) : Yields ts [] problems where
  tags t member := by simp [Tag.preorder] at member
  problems p member := .inl (each p member)

theorem of_token {t : Token} (inside : t ∈ ts) (c : Cause) : Yields ts [] [⟨t.span, c⟩] :=
  of_tokens fun p member => ⟨t, inside, by rw [List.mem_singleton.1 member]⟩

/-- A tag comes from its words, and what is below it from the same tokens. -/
theorem tag {ws : List Token} {h : Head} {ps : List Problem} (read : Head.read? ws = some (h, ps))
    (part : ws <:+: ts) (below : Yields ts tags problems) (start stop : Nat) :
    Yields ts [h.toTag start stop tags] (ps ++ problems) where
  tags t member := by
    rw [Tag.preorder_cons, List.mem_cons] at member
    rcases member with rfl | member
    · exact ⟨h, ps, start, stop, tags, ⟨ws, part, read⟩, rfl⟩
    · exact below.tags t (by simpa [Tag.preorder, Head.toTag] using member)
  problems p member := by
    rcases List.mem_append.1 member with member | member
    · exact .inr ⟨h, ps, ⟨ws, part, read⟩, member⟩
    · exact below.problems p member

theorem unclosed {o : Token} (inside : o ∈ ts) (c : Option Token) :
    Yields ts [] (unclosed o c) := by
  refine of_tokens fun p member => ?_
  cases c with
  | some c => simp [Sdl.unclosed] at member
  | none =>
      obtain rfl := List.mem_singleton.1 member
      exact ⟨o, inside, rfl⟩

end Yields

mutual

theorem yields_singleton (textStop depth : Nat) : ∀ s : Statement,
    Yields s.tokens (tagsOf textStop depth [s]).1 (tagsOf textStop depth [s]).2
  | .separator t => by simpa [tagsOf] using .of_tokens (by simp)
  | .stray t => by simpa [tagsOf, Statement.tokens] using .of_token List.mem_cons_self _
  | .line ws => by
      rw [Statement.tokens]
      rcases tagsOf_line_cases textStop depth ws with
        given | ⟨first, inside, given⟩ | ⟨first, words, h, ps, rfl, read, given⟩
      · rw [given]
        exact .of_tokens (by simp)
      · rw [given]
        exact .of_token inside _
      · rw [given, ← List.append_nil ps]
        exact .tag read List.infix_rfl (.of_tokens (by simp)) _ _
  | .block ws o b c => by
      have opening : o ∈ ws ++ o :: (Statement.tokensOfList b ++ c.toList) := by simp
      have inside : Statement.tokensOfList b <:+:
          ws ++ o :: (Statement.tokensOfList b ++ c.toList) := ⟨ws ++ [o], c.toList, by simp⟩
      have body := (yields_tagsOf textStop (depth + 1) b).mono inside
      rw [Statement.tokens]
      rcases tagsOf_block_cases textStop depth ws o b c with
        ⟨first, inside, given⟩ | ⟨first, rest, h, ps, rfl, read, given⟩
      · have known : first ∈ ws ++ o :: (Statement.tokensOfList b ++ c.toList) := by
          rcases List.mem_append.1 inside with inside | inside
          · exact List.mem_append_left _ inside
          · exact List.mem_singleton.1 inside ▸ opening
        rw [given]
        exact (Yields.of_token known _).append (.unclosed opening c)
      · have words : first :: rest <:+:
            first :: rest ++ o :: (Statement.tokensOfList b ++ c.toList) :=
          (List.prefix_append _ _).isInfix
        rcases given with given | given
        · rw [given]
          simpa using (Yields.tag read words body _ _).append (.unclosed opening c)
        · rw [given]
          exact .tag read words ((Yields.of_token opening _).append (.unclosed opening c)) _ _

/-- **What is read from statements comes from their tokens.** -/
theorem yields_tagsOf (textStop depth : Nat) : ∀ ss : List Statement,
    Yields (Statement.tokensOfList ss) (tagsOf textStop depth ss).1 (tagsOf textStop depth ss).2
  | [] => by simpa [tagsOf] using .of_tokens (by simp)
  | s :: r => by
      rw [tagsOf_cons_append, Statement.tokensOfList]
      have here := (yields_singleton textStop depth s).mono
        (List.prefix_append s.tokens (Statement.tokensOfList r)).isInfix
      have behind := (yields_tagsOf textStop depth r).mono
        (List.suffix_append s.tokens (Statement.tokensOfList r)).isInfix
      exact here.append behind

end

/-! ## Words in their places -/

section Words

variable {used ws : List Token} {h : Head} {ps : List Problem}

/-- The name of an attribute is not empty. -/
theorem Head.NameIn.start_lt_stop {ts : List Token} {space : Option String} {name : String}
    {nameSpan : Span} (named : NameIn ts space name nameSpan) (placed : Placed ts) :
    nameSpan.start < nameSpan.stop := by
  cases named with
  | plain inside _ => exact placed.start_lt_stop inside
  | @spaced _ _ n row _ _ _ =>
      have three := placed.part row
      have first := three.start_lt_stop List.mem_cons_self
      have last := three.start_lt_stop (t := n) (by simp)
      have apart := three.head_stop_le_start (u := n) (by simp)
      dsimp only
      omega

/-- The name of an attribute stands in front of the equals sign. -/
theorem Head.Item.TakenFrom.name_ahead {space : Option String} {name : String} {s : Span}
    {e : Token} {value : Option (Token × Value)}
    (taken : Item.TakenFrom used (.attribute space name s e value)) (placed : Placed used) :
    s.stop ≤ e.start := by
  have valueless {us : List Token} (taken : Item.TakenFrom us (.attribute space name s e none))
      (placed : Placed us) : s.stop ≤ e.start := by
    cases taken with
    | assigned => exact placed.head_stop_le_start List.mem_cons_self
    | spaced => exact placed.tail.tail.head_stop_le_start List.mem_cons_self
  cases value with
  | none => exact valueless taken placed
  | some v =>
      cases taken with
      | value taken => exact valueless taken placed.left

namespace Head

theorem exists_item_of_mem_addItems {is : List Item} {p : Problem}
    (member : p ∈ (h.addItems is).2) : ∃ h' : Head, ∃ i ∈ is, p ∈ (h'.addItem i).2 := by
  induction is generalizing h with
  | nil => simp [addItems] at member
  | cons i is ih =>
      simp only [addItems, List.mem_append] at member
      rcases member with member | member
      · exact ⟨h, i, List.mem_cons_self, member⟩
      · obtain ⟨h', j, inside, found⟩ := ih member
        exact ⟨h', j, List.mem_cons_of_mem i inside, found⟩

/-- A problem that is raised by words begins no later than it ends. -/
theorem ordered_of_mem_read? (read : read? ws = some (h, ps)) (placed : Placed ws) {p : Problem}
    (member : p ∈ ps) : p.span.start ≤ p.span.stop := by
  obtain ⟨⟨h₀, rest⟩, begun, added⟩ := Option.map_eq_some_iff.1 read
  obtain ⟨-, before, b, rfl, -⟩ := begin_of_ofWords? begun
  rw [← show (h₀.addItems (items rest)).2 = ps from congrArg Prod.snd added] at member
  obtain ⟨h', i, inside, raised⟩ := exists_item_of_mem_addItems member
  obtain ⟨used, part, taken⟩ := takenFrom_of_mem_items inside
  have token (t : Token) : t.span.start ≤ t.span.stop := Nat.le_add_right _ _
  cases i with
  | word t =>
      simp only [addItem] at raised
      split at raised
      · split at raised
        · simp at raised
        · exact List.mem_singleton.1 raised ▸ token t
      · split at raised
        · exact List.mem_singleton.1 raised ▸ token t
        · simp at raised
        · exact List.mem_singleton.1 raised ▸ token t
  | «attribute» space name s e value =>
      cases value with
      | some v => simp [addItem] at raised
      | none =>
          obtain rfl := List.mem_singleton.1 raised
          have behind : rest <:+: before ++ b :: rest := ⟨before ++ [b], [], by simp⟩
          have inner := placed.part (part.trans behind)
          have name := taken.nameIn.start_lt_stop inner
          have ahead := taken.name_ahead inner
          have equals := token e
          simp only [Token.span] at equals ⊢
          omega

/-- The name of a tag is not empty. -/
theorem name_of_read? (read : read? ws = some (h, ps)) (placed : Placed ws) : h.name ≠ "" := by
  have word {t : Token} (member : t ∈ ws) : t.word ≠ "" := (placed.lexed t member).word_ne
  obtain ⟨⟨h₀, rest⟩, begun, -⟩ := Option.map_eq_some_iff.1 read
  obtain ⟨stop, rfl⟩ := eq_of_read? begun read
  cases ws with
  | nil => simp [ofWords?] at begun
  | cons first words =>
      rcases ofWords?_cases first words with
        ⟨_, _, same⟩ | ⟨_, _, _, rfl, _, _, _, same⟩ | ⟨_, same⟩
      · cases same.symm.trans begun
        exact word List.mem_cons_self
      · cases same.symm.trans begun
        exact word (by simp)
      · rw [same] at begun
        obtain ⟨v, -, found⟩ := Option.map_eq_some_iff.1 begun
        cases found
        simp [anonymousName]

end Head

end Words

/-! ## What is read from a text -/

/-- A problem of a piece begins no later than it ends. -/
theorem Piece.ordered_of_mem_problems {start : Nat} {ps : List Piece} {p : Problem}
    (member : p ∈ Piece.problems start ps) : p.span.start ≤ p.span.stop := by
  induction ps generalizing start with
  | nil => simp [Piece.problems] at member
  | cons piece ps ih =>
      rw [Piece.problems, List.mem_append, Option.mem_toList] at member
      rcases member with found | member
      · unfold Piece.problem? at found
        split at found
        case h_3 =>
          split at found
          · cases found
          · cases found
            exact Nat.le_add_right _ _
        case h_4 =>
          obtain ⟨c, -, rfl⟩ := Option.map_eq_some_iff.1 found
          exact Nat.le_add_right _ _
        case h_7 => cases found
        all_goals
          cases found
          exact Nat.le_add_right _ _
      · exact ih member

namespace Document

variable {text : List Char} {t t' : Tag} {a : Attribute}

theorem yields (text : List Char) :
    Yields (Lexing.ofText text).tokens (ofText text).root.children (tagsOfText text).2 := by
  have yields := yields_tagsOf (textStop text) 0 (Statement.ofText text)
  rwa [Statement.ofText, Statement.tokens_ofTokens] at yields

theorem exists_readIn (member : t ∈ Tag.preorder (ofText text).root.children) :
    ∃ ws h ps start stop children, Placed ws ∧ Head.read? ws = some (h, ps) ∧
      t = h.toTag start stop children := by
  obtain ⟨h, ps, start, stop, children, ⟨ws, part, read⟩, same⟩ := (yields text).tags t member
  exact ⟨ws, h, ps, start, stop, children, (Lexing.placed_tokens text).part part, read, same⟩

/-- No tag of a text has an empty name. -/
theorem name_ne_of_mem (member : t ∈ Tag.preorder (ofText text).root.children) : t.name ≠ "" := by
  obtain ⟨ws, h, ps, start, stop, children, placed, read, rfl⟩ := exists_readIn member
  exact Head.name_of_read? read placed

theorem qualifiedName_ne_of_mem (member : t ∈ Tag.preorder (ofText text).root.children) :
    t.qualifiedName ≠ "" := by
  have given := name_ne_of_mem member
  rw [Tag.qualifiedName]
  fun_cases qualify t.space t.name
  · exact given
  · exact given
  · simp [← String.toList_eq_nil_iff]

/-- No attribute of a text has an empty name. -/
theorem nameSpan_of_attribute (member : t ∈ Tag.preorder (ofText text).root.children)
    (inside : a ∈ t.attributes) : a.nameSpan.start < a.nameSpan.stop := by
  obtain ⟨ws, h, ps, start, stop, children, placed, read, rfl⟩ := exists_readIn member
  exact (Head.nameIn_of_read? read inside).start_lt_stop placed

/-- **The problems of a text begin no later than they end.** -/
theorem ordered_of_mem_problems {p : Problem} (member : p ∈ (ofText text).problems) :
    p.span.start ≤ p.span.stop := by
  rw [ofText_eq] at member
  rcases List.mem_append.1 (Problem.mem_sort.1 member) with member | member
  · exact Piece.ordered_of_mem_problems member
  · rcases (yields text).problems p member with ⟨t, -, same⟩ | ⟨h, ps, ⟨ws, part, read⟩, raised⟩
    · rw [same]
      exact Nat.le_add_right _ _
    · exact Head.ordered_of_mem_read? read ((Lexing.placed_tokens text).part part) raised

end Document

/-! ## The order of the parts of a text -/

namespace Tag

variable {text : List Char}

/-- Each tag of a tree stands inside of a tag at its top. -/
theorem exists_top : ∀ {ts : List Tag}, (∀ t ∈ preorder ts, t.WellPlaced text) →
    ∀ t ∈ preorder ts, ∃ c ∈ ts, t.place.Within c.place
  | [], _, t, member => by simp [preorder] at member
  | ⟨space, name, nameSpan, span, values, attributes, children⟩ :: ts, placed, t, member => by
      rw [preorder_cons] at placed member
      have top := placed _ List.mem_cons_self
      have below : ∀ u ∈ preorder children, u.WellPlaced text :=
        fun u inside => placed u (by simp [inside])
      have later : ∀ u ∈ preorder ts, u.WellPlaced text :=
        fun u inside => placed u (by simp [inside])
      rcases List.mem_cons.1 member with rfl | member
      · exact ⟨_, List.mem_cons_self, Nat.le_refl _, Nat.le_refl _⟩
      · rcases List.mem_append.1 member with member | member
        · obtain ⟨c, child, low, high⟩ := exists_top below t member
          obtain ⟨low', high'⟩ := top.children c child
          exact ⟨_, List.mem_cons_self, low'.trans low, high.trans high'⟩
        · obtain ⟨c, inside, within⟩ := exists_top later t member
          exact ⟨c, List.mem_cons_of_mem _ inside, within⟩

/-- All that a tag holds itself stands in front of another tag. -/
def Ahead (a b : Tag) : Prop :=
  ∀ s ∈ a.nameSpans ++ a.valueSpans, s.stop ≤ b.place.start

/-- What a tag holds stands in front of all tags behind it in reading order. -/
theorem pairwise_preorder : ∀ {ts : List Tag}, (∀ t ∈ preorder ts, t.WellPlaced text) →
    ts.Pairwise (fun a b => a.place.stop ≤ b.place.start) → (preorder ts).Pairwise Ahead
  | [], _, _ => by simp [preorder]
  | ⟨space, name, nameSpan, span, values, attributes, children⟩ :: ts, placed, ordered => by
      rw [preorder_cons] at placed ⊢
      obtain ⟨behind, ordered⟩ := List.pairwise_cons.1 ordered
      have top := placed _ List.mem_cons_self
      have below : ∀ t ∈ preorder children, t.WellPlaced text :=
        fun u inside => placed u (by simp [inside])
      have later : ∀ t ∈ preorder ts, t.WellPlaced text :=
        fun u inside => placed u (by simp [inside])
      rw [List.pairwise_cons, List.pairwise_append]
      refine ⟨?_, pairwise_preorder below top.siblings, pairwise_preorder later ordered, ?_⟩
      · intro u member s part
        rcases List.mem_append.1 member with member | member
        · obtain ⟨c, child, low, -⟩ := exists_top below u member
          exact (top.ahead s part c child).trans low
        · obtain ⟨c, inside, low, -⟩ := exists_top later u member
          exact ((top.parts s part).2.2.trans (behind c inside)).trans low
      · intro d member u member' s part
        obtain ⟨c, child, -, high⟩ := exists_top below d member
        obtain ⟨c', inside, low, -⟩ := exists_top later u member'
        have within := ((below d member).parts s part).2.2
        have outer := (top.children c child).2
        exact (within.trans (high.trans outer)).trans ((behind c' inside).trans low)

end Tag

/-- **No two tags of a text share a part** that is not empty. -/
theorem Document.eq_of_shared_part {text : List Char} {t t' : Tag} {s : Span}
    (member : t ∈ Tag.preorder (ofText text).root.children)
    (member' : t' ∈ Tag.preorder (ofText text).root.children)
    (part : s ∈ t.nameSpans ++ t.valueSpans) (part' : s ∈ t'.nameSpans ++ t'.valueSpans)
    (nonempty : s.start < s.stop) : t = t' := by
  have arranged := Document.arranged text
  -- Of two tags the one in front holds nothing that the other one holds.
  have apart {a b : Tag} (inside : b ∈ Tag.preorder (ofText text).root.children)
      (ahead : a.Ahead b) (left : s ∈ a.nameSpans ++ a.valueSpans)
      (right : s ∈ b.nameSpans ++ b.valueSpans) : False := by
    have before := ahead s left
    have behind := ((arranged.each b inside).parts s right).2.1
    omega
  have ordered : (Tag.preorder (ofText text).root.children).Pairwise
      fun a b => a.Ahead b ∨ b.Ahead a :=
    (Tag.pairwise_preorder arranged.each (List.pairwise_map.1 arranged.row.pairwise)).imp .inl
  have : Std.Symm fun a b : Tag => a.Ahead b ∨ b.Ahead a := ⟨fun _ _ => Or.symm⟩
  by_contra different
  rcases ordered.forall member member' different with ahead | ahead
  · exact apart member' ahead part part'
  · exact apart member ahead part' part

/-- **An attribute of a text is known by the place of its name**, and so is its tag. -/
theorem Document.attribute_unique {text : List Char} {t t' : Tag} {a a' : Attribute}
    (member : t ∈ Tag.preorder (ofText text).root.children)
    (member' : t' ∈ Tag.preorder (ofText text).root.children) (inside : a ∈ t.attributes)
    (inside' : a' ∈ t'.attributes) (same : a.nameSpan = a'.nameSpan) : t = t' ∧ a = a' := by
  have nonempty := nameSpan_of_attribute member inside
  have part {u : Tag} {b : Attribute} (held : b ∈ u.attributes) :
      b.nameSpan ∈ u.nameSpans ++ u.valueSpans :=
    List.mem_append_left _ (List.mem_cons_of_mem _ (List.mem_map_of_mem held))
  obtain rfl := eq_of_shared_part member member' (part inside) (same ▸ part inside') nonempty
  refine ⟨rfl, ?_⟩
  have apart := (List.pairwise_append.1 ((arranged text).each t member).apart).1.of_cons
  have : Std.Symm fun a b : Attribute =>
      a.nameSpan.stop ≤ b.nameSpan.start ∨ b.nameSpan.stop ≤ a.nameSpan.start :=
    ⟨fun _ _ => Or.symm⟩
  by_contra different
  have clash := (List.pairwise_map.1 apart).forall inside inside' different
  rw [← same] at clash
  omega

end PackageRecipe.Sdl
