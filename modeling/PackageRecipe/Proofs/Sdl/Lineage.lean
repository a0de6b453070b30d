import Mathlib
import PackageRecipe.Proofs.Sdl.Grammar

/-!
# The tags around a tag

A tag of a tree is known by the tags that lead to it from the top of the tree.

## Main Definitions

* `Tag.lineages` — for each tag of a forest, the tags from the top down to it

## Design Notes

Equal tags may stand at several places of a tree, and each place has its own lineage, so
`lineages` counts places and not tags.  In the tree of a text all tags begin at different
places (`Document.lineage_unique`), so that a lineage is known by the place of its last
tag.
-/

namespace PackageRecipe.Sdl

open PackageRecipe.Text

namespace Tag

mutual

/-- The lineages of a tag and of all tags below it that begin with the tag. -/
def lineagesFrom : Tag → List (List Tag)
  | t@⟨_, _, _, _, _, _, children⟩ => [t] :: (lineages children).map (t :: ·)

/-- For each of some tags and of all below them, in reading order, the tags that lead to
it, from the top down and with itself as the last. -/
def lineages : List Tag → List (List Tag)
  | [] => []
  | t :: ts => lineagesFrom t ++ lineages ts

end

theorem lineages_cons (t : Tag) (ts : List Tag) :
    lineages (t :: ts) = ([] :: lineages t.children).map (t :: ·) ++ lineages ts := by
  cases t
  rw [lineages, lineagesFrom, List.map_cons]

theorem lineages_eq_flatMap (ts : List Tag) :
    lineages ts = ts.flatMap fun t => ([] :: lineages t.children).map (t :: ·) := by
  induction ts with
  | nil => rfl
  | cons t ts ih => rw [lineages_cons, ih, List.flatMap_cons]

/-- A lineage begins with a tag of the forest and goes on below it. -/
theorem cons_mem_lineages {t : Tag} {line : List Tag} {ts : List Tag} :
    t :: line ∈ lineages ts ↔ t ∈ ts ∧ line ∈ [] :: lineages t.children := by
  rw [lineages_eq_flatMap, List.mem_flatMap]
  constructor
  · rintro ⟨u, inside, member⟩
    obtain ⟨rest, found, same⟩ := List.mem_map.1 member
    obtain ⟨rfl, rfl⟩ := List.cons.inj same
    exact ⟨inside, found⟩
  · rintro ⟨inside, found⟩
    exact ⟨t, inside, List.mem_map_of_mem found⟩

theorem cons_mem_paths {t : Tag} {line : List Tag} {ts : List Tag} :
    t :: line ∈ [] :: lineages ts ↔ t ∈ ts ∧ line ∈ [] :: lineages t.children := by
  rw [List.mem_cons, or_iff_right (List.cons_ne_nil t line), cons_mem_lineages]

/-- The first tags of a lineage are a lineage. -/
theorem mem_lineages_of_append {c : Tag} {before after ts : List Tag}
    (member : before ++ c :: after ∈ lineages ts) : before ++ [c] ∈ lineages ts := by
  induction before generalizing ts with
  | nil => exact cons_mem_lineages.2 ⟨(cons_mem_lineages.1 member).1, List.mem_cons_self⟩
  | cons t before ih =>
      obtain ⟨inside, rest⟩ := cons_mem_lineages.1 member
      refine cons_mem_lineages.2 ⟨inside, List.mem_cons_of_mem _ (ih ?_)⟩
      exact (List.mem_cons.1 rest).resolve_left (by simp)

/-- A lineage is continued by the children of its last tag. -/
theorem concat_mem_lineages_iff {root c : Tag} {line : List Tag} :
    line ++ [c] ∈ lineages root.children ↔
      line ∈ [] :: lineages root.children ∧ c ∈ (line.getLastD root).children := by
  induction line generalizing root with
  | nil => simp [cons_mem_lineages]
  | cons t line ih =>
      have nonempty : line ++ [c] ≠ [] := by simp
      rw [List.cons_append, cons_mem_lineages, List.mem_cons, or_iff_right nonempty, ih,
        List.getLastD_cons, cons_mem_paths, and_assoc]

theorem ne_nil_of_mem_lineages {line ts : List Tag} (member : line ∈ lineages ts) : line ≠ [] := by
  rw [lineages_eq_flatMap] at member
  obtain ⟨t, -, found⟩ := List.mem_flatMap.1 member
  obtain ⟨rest, -, rfl⟩ := List.mem_map.1 found
  exact List.cons_ne_nil t rest

/-- A lineage that begins further up ends with the same tag. -/
theorem map_getLast?_map_cons (t : Tag) (ts : List Tag) :
    ((lineages ts).map (t :: ·)).map List.getLast? = (lineages ts).map List.getLast? := by
  rw [List.map_map]
  refine List.map_congr_left fun line member => ?_
  obtain ⟨u, rest, rfl⟩ := List.exists_cons_of_ne_nil (ne_nil_of_mem_lineages member)
  exact List.getLast?_cons_cons

/-- The lineages of a forest end with its tags, one for each place. -/
theorem map_getLast?_lineages : ∀ ts : List Tag,
    (lineages ts).map List.getLast? = (preorder ts).map some
  | [] => rfl
  | ⟨space, name, nameSpan, span, values, attributes, children⟩ :: ts => by
      have below := map_getLast?_lineages children
      have behind := map_getLast?_lineages ts
      rw [lineages_cons, preorder_cons, List.map_append, List.map_cons, List.map_cons,
        map_getLast?_map_cons, below, behind, List.map_cons, List.map_append]
      rfl

theorem mem_preorder_of_lineage {line ts : List Tag} {t : Tag} (member : line ∈ lineages ts)
    (inside : t ∈ line) : t ∈ preorder ts := by
  obtain ⟨before, after, rfl⟩ := List.append_of_mem inside
  have last : (before ++ [t]).getLast? ∈ (lineages ts).map List.getLast? :=
    List.mem_map_of_mem (mem_lineages_of_append member)
  rw [map_getLast?_lineages, List.getLast?_concat] at last
  simpa using last

/-- A lineage leads to a tag of the forest, unless it is empty. -/
theorem getLastD_of_lineage {line : List Tag} {root : Tag}
    (isLine : line ∈ [] :: lineages root.children) :
    line.getLastD root = root ∨ line.getLastD root ∈ preorder root.children := by
  rcases List.eq_nil_or_concat line with rfl | ⟨front, t, rfl⟩
  · exact .inl rfl
  · rw [List.concat_eq_append, List.getLastD_concat]
    exact .inr (mem_preorder_of_lineage ((List.mem_cons.1 isLine).resolve_left (by simp)) (by simp))

theorem mem_preorder_of_mem {t : Tag} {ts : List Tag} (top : t ∈ ts) : t ∈ preorder ts :=
  mem_preorder_of_lineage (cons_mem_lineages.2 ⟨top, List.mem_cons_self⟩) List.mem_cons_self

theorem mem_preorder_of_child : ∀ {ts : List Tag} {t c : Tag}, t ∈ preorder ts →
    c ∈ t.children → c ∈ preorder ts
  | [], _, _, member, _ => by simp [preorder] at member
  | ⟨space, name, nameSpan, span, values, attributes, children⟩ :: ts, t, c, member, child => by
      rw [preorder_cons] at member ⊢
      rcases List.mem_cons.1 member with rfl | member
      · exact List.mem_cons_of_mem _ (List.mem_append_left _ (mem_preorder_of_mem child))
      · refine List.mem_cons_of_mem _ (List.mem_append.2 ?_)
        rcases List.mem_append.1 member with member | member
        · exact .inl (mem_preorder_of_child member child)
        · exact .inr (mem_preorder_of_child member child)

end Tag

/-! ## Where the tags of a text begin -/

/-- A tag that is read from words of which the given token is the first. -/
def Tag.BeginsWith (t : Tag) (first : Token) : Prop :=
  ∃ words h ps stop children, Head.read? (first :: words) = some (h, ps) ∧
    t = h.toTag first.start stop children

mutual

/-- Each tag of a statement begins with a token of its own. -/
theorem forall₂_beginsWith_singleton (textStop depth : Nat) : ∀ s : Statement,
    ∃ firsts, firsts.Sublist s.tokens ∧
      List.Forall₂ Tag.BeginsWith (Tag.preorder (tagsOf textStop depth [s]).1) firsts
  | .separator t => ⟨[], List.nil_sublist _, by simp [tagsOf, Tag.preorder]⟩
  | .stray t => ⟨[], List.nil_sublist _, by simp [tagsOf, Tag.preorder]⟩
  | .line ws => by
      rcases tagsOf_line_cases textStop depth ws with
        given | ⟨first, _, given⟩ | ⟨first, words, h, ps, rfl, read, given⟩
      · exact ⟨[], List.nil_sublist _, by simp [given, Tag.preorder]⟩
      · exact ⟨[], List.nil_sublist _, by simp [given, Tag.preorder]⟩
      · refine ⟨[first], (List.nil_sublist _).cons_cons _, ?_⟩
        rw [given]
        exact .cons ⟨words, h, ps, h.stop, [], read, rfl⟩ .nil
  | .block ws o b c => by
      obtain ⟨firsts, part, begin⟩ := forall₂_beginsWith textStop (depth + 1) b
      rcases tagsOf_block_cases textStop depth ws o b c with
        ⟨first, _, given⟩ | ⟨first, words, h, ps, rfl, read, given | given⟩
      · exact ⟨[], List.nil_sublist _, by simp [given, Tag.preorder]⟩
      · refine ⟨first :: firsts, ?_, ?_⟩
        · have inside := part.append (List.nil_sublist c.toList)
          rw [List.append_nil] at inside
          exact ((inside.cons o).trans (List.sublist_append_right words _)).cons_cons first
        · rw [given, Tag.preorder_cons]
          refine .cons ⟨words, h, ps, _, _, read, rfl⟩ ?_
          simpa [Tag.preorder, Head.toTag] using begin
      · refine ⟨[first], (List.nil_sublist _).cons_cons _, ?_⟩
        rw [given]
        exact .cons ⟨words, h, ps, _, [], read, rfl⟩ .nil

/-- Each tag of statements begins with a token of its own. -/
theorem forall₂_beginsWith (textStop depth : Nat) : ∀ ss : List Statement,
    ∃ firsts, firsts.Sublist (Statement.tokensOfList ss) ∧
      List.Forall₂ Tag.BeginsWith (Tag.preorder (tagsOf textStop depth ss).1) firsts
  | [] => ⟨[], List.nil_sublist _, by simp [tagsOf, Tag.preorder]⟩
  | s :: r => by
      obtain ⟨firsts, part, begin⟩ := forall₂_beginsWith_singleton textStop depth s
      obtain ⟨firsts', part', begin'⟩ := forall₂_beginsWith textStop depth r
      refine ⟨firsts ++ firsts', part.append part', ?_⟩
      rw [tagsOf_cons_append, Tag.preorder_append]
      exact List.rel_append begin begin'

end

/-- The name of a tag begins with its first token. -/
theorem Tag.BeginsWith.start_eq {t : Tag} {first : Token} (begin : t.BeginsWith first) :
    t.nameSpan.start = first.start := by
  obtain ⟨words, h, ps, stop, children, read, rfl⟩ := begin
  exact Head.nameSpan_start read

/-- The tags of a text begin with tokens of the text, one behind the other. -/
theorem Document.forall₂_beginsWith (text : List Char) :
    ∃ firsts, firsts.Sublist (Lexing.ofText text).tokens ∧
      List.Forall₂ Tag.BeginsWith (Tag.preorder (ofText text).root.children) firsts := by
  rw [← Statement.tokens_ofTokens (Lexing.ofText text).tokens]
  exact Sdl.forall₂_beginsWith (textStop text) 0 (Statement.ofText text)

/-- No two tags of a text begin at the same place. -/
theorem Document.nodup_starts (text : List Char) :
    ((Tag.preorder (ofText text).root.children).map (·.nameSpan.start)).Nodup := by
  obtain ⟨firsts, part, begin⟩ := forall₂_beginsWith text
  have starts : (Tag.preorder (ofText text).root.children).map (·.nameSpan.start) =
      firsts.map Token.start := by
    rw [← List.forall₂_eq_eq_eq, List.forall₂_map_left_iff, List.forall₂_map_right_iff]
    exact begin.imp fun _ _ => Tag.BeginsWith.start_eq
  have placed := Lexing.placed_tokens text
  have ordered := placed.ordered.sublist part
  rw [starts, List.Nodup, List.pairwise_map]
  refine ordered.imp_of_mem fun {a b} left _ apart => ?_
  have nonempty := placed.start_lt_stop (part.subset left)
  omega

theorem Document.exists_beginsWith {text : List Char} {t : Tag}
    (member : t ∈ Tag.preorder (ofText text).root.children) :
    ∃ first ∈ (Lexing.ofText text).tokens, t.BeginsWith first := by
  obtain ⟨firsts, part, begin⟩ := forall₂_beginsWith text
  obtain ⟨same, each⟩ := List.forall₂_iff_get.1 begin
  obtain ⟨i, bound, rfl⟩ := List.getElem_of_mem member
  exact ⟨_, part.subset (List.getElem_mem (same ▸ bound)), each i bound (same ▸ bound)⟩

/-- A tag of a text has a place, which begins with its name. -/
theorem Document.span_of_mem {text : List Char} {t : Tag}
    (member : t ∈ Tag.preorder (ofText text).root.children) :
    ∃ stop, t.span = some ⟨t.nameSpan.start, stop⟩ := by
  obtain ⟨first, -, begin⟩ := exists_beginsWith member
  have start := begin.start_eq
  obtain ⟨words, h, ps, stop, children, read, rfl⟩ := begin
  exact ⟨stop, by rw [start]; rfl⟩

/-- A namespace that is written is not empty. -/
theorem Document.space_ne_of_mem {text : List Char} {t : Tag}
    (member : t ∈ Tag.preorder (ofText text).root.children) : t.space ≠ some "" := by
  obtain ⟨first, found, words, h, ps, stop, children, read, rfl⟩ := exists_beginsWith member
  have nonempty := (Lexing.placed_tokens text).start_lt_stop found
  obtain ⟨⟨h₀, rest⟩, begun, -⟩ := Option.map_eq_some_iff.1 read
  obtain ⟨stop, rfl⟩ := Head.eq_of_read? begun read
  change h₀.space ≠ some ""
  rcases Head.ofWords?_cases first words with
    ⟨_, _, same⟩ | ⟨_, _, _, _, _, _, _, same⟩ | ⟨_, same⟩
  · rw [same] at begun
    cases begun
    simp
  · rw [same] at begun
    cases begun
    intro empty
    have text : first.text = [] := by simpa [Token.word] using empty
    simp [Token.stop, text] at nonempty
  · rw [same] at begun
    obtain ⟨v, -, found⟩ := Option.map_eq_some_iff.1 begun
    cases found
    simp

/-- **In the tree of a text a lineage is known by the place of its last tag.** -/
theorem Document.lineage_unique {text : List Char} {line line' : List Tag} {t t' : Tag}
    (member : line ++ [t] ∈ Tag.lineages (ofText text).root.children)
    (member' : line' ++ [t'] ∈ Tag.lineages (ofText text).root.children)
    (same : t.nameSpan.start = t'.nameSpan.start) : line ++ [t] = line' ++ [t'] := by
  have nodup : (((Tag.lineages (ofText text).root.children).map List.getLast?).map
      (Option.map (·.nameSpan.start))).Nodup := by
    have starts := (nodup_starts text).map (Option.some_injective Nat)
    rw [Tag.map_getLast?_lineages]
    simpa using starts
  rw [List.map_map] at nodup
  refine List.inj_on_of_nodup_map nodup member member' ?_
  simp [same]

end PackageRecipe.Sdl
