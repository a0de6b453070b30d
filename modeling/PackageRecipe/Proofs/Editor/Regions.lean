import Mathlib
import PackageRecipe.Editor.Diagnostic
import PackageRecipe.Editor.Outline
import PackageRecipe.Proofs.Editor.Hovering
import PackageRecipe.Proofs.Text.Position
import PackageRecipe.Proofs.Validation.Resolution

/-!
# The regions that an editor is shown

Whatever is wrong with a text, the diagnostics, the hovers and the outline of the text name
regions of it, and the regions of an outline are nested as its symbols are.  All this holds of the
texts whose lines and columns have numbers of 32 bits.

## Main Definitions

* `Sdl.Tag.Ordered` — the places of a tag and of its parts begin no later than they end
* `Editor.Symbol.preorder` — the symbols of an outline, each before those below it
* `Editor.Symbol.Placed` — the regions of a symbol and of its children are nested

## Design Notes

A span becomes a region by `Position.ofOffset`, which keeps the order of offsets in an addressable
text.  So all that is shown here is where the spans come from: a finding stands at a tag that the
schema reaches or at a part of it, a hover at a name of the tree, and a symbol at its tag.
-/

namespace PackageRecipe

open PackageRecipe.Text PackageRecipe.Sdl

/-! ## Where findings stand -/

/-- The places of a tag and of its parts begin no later than they end. -/
structure Sdl.Tag.Ordered (t : Tag) : Prop where
  span : ∀ s ∈ t.span, s.start ≤ s.stop
  parts : ∀ s ∈ t.nameSpans ++ t.valueSpans, s.start ≤ s.stop

theorem Sdl.Document.ordered_of_mem {text : List Char} {t : Tag}
    (member : t ∈ Tag.preorder (Document.ofText text).root.children) : t.Ordered := by
  have placed := (Document.arranged text).each t member
  constructor
  · intro s found
    obtain rfl : t.place = s := Option.some.inj (placed.span.symm.trans found)
    exact placed.bounds.1
  · exact fun s part => (placed.parts s part).1

theorem Sdl.Document.ordered_root (text : List Char) : (Document.ofText text).root.Ordered where
  span s found := by cases found
  parts s part := by
    obtain rfl : s = ⟨0, 0⟩ := List.mem_singleton.1 part
    exact Nat.le_refl 0

theorem Sdl.Document.ordered_of_lineage {text : List Char} {line : List Tag}
    (isLine : line ∈ [] :: Tag.lineages (Document.ofText text).root.children) :
    (line.getLastD (Document.ofText text).root).Ordered := by
  rcases Tag.getLastD_of_lineage isLine with top | below
  · rw [top]
    exact Document.ordered_root text
  · exact Document.ordered_of_mem below

namespace Validation

variable {s : Schema} {n : Node} {t c : Tag} {f : Finding}

/-- What the rules find at a child stands at its name or at the whole of it. -/
theorem span_of_mem_childFindings (member : f ∈ childFindings s n c) :
    f.span = some c.nameSpan ∨ f.span = c.span := by
  cases misplaces_of_mem_childFindings member with
  | unknownSpace | unknownTag => exact .inl rfl
  | wrongSpace => exact .inr rfl

theorem span_of_mem_valueFindings {rule : ValueRule} {v : Value}
    (member : f ∈ valueFindings rule v) : f.span = some v.span := by
  rw [valueFindings, contentFindings_eq, wrongKind, List.mem_append, mem_reportIf] at member
  rcases member with ⟨-, rfl⟩ | member
  · rfl
  · obtain ⟨fault, -, rfl⟩ := List.mem_map.1 member
    rfl

/-- What the rules find at a tag itself stands at the whole of it or at one of its parts. -/
theorem span_of_mem_ownFindings (member : f ∈ ownFindings n t) :
    f.span = t.span ∨ ∃ s ∈ t.nameSpans ++ t.valueSpans, f.span = some s := by
  simp only [ownFindings, emptyBlock, tooFew, tooMany, List.mem_append, List.mem_flatMap,
    mem_reportIf] at member
  rcases member with (((⟨-, rfl⟩ | ⟨rule, -, v, inside, found⟩) | ⟨k, -, -, rfl⟩) |
    ⟨k, -, -, rfl⟩) | ⟨a, inside, found⟩
  · exact .inl rfl
  · refine .inr ⟨v.span, ?_, span_of_mem_valueFindings found⟩
    simp only [Tag.valueSpans, List.mem_append, List.mem_map]
    exact .inr (.inl ⟨v, inside, rfl⟩)
  · exact .inl rfl
  · exact .inl rfl
  · rcases found with found | found
    · refine .inr ⟨a.nameSpan, ?_, ?_⟩
      · simp only [Tag.nameSpans, List.mem_append, List.mem_cons, List.mem_map]
        exact .inl (.inr ⟨a, inside, rfl⟩)
      · rw [unknownAttribute, mem_reportIf] at found
        rw [found.2]
    · obtain ⟨rule, -, found⟩ := List.mem_flatMap.1 found
      refine .inr ⟨a.value.span, ?_, span_of_mem_valueFindings found⟩
      simp only [Tag.valueSpans, List.mem_append, List.mem_map]
      exact .inr (.inr ⟨a, inside, rfl⟩)

/-- **What is found in a text** stands at a place that begins no later than it ends. -/
theorem ordered_of_mem_validate {schema : Schema} {text : List Char}
    (member : f ∈ validate schema (Document.ofText text)) : ∀ s ∈ f.span, s.start ≤ s.stop := by
  intro place found
  rcases mem_validate_iff.1 member with
    ⟨p, inside, rfl⟩ | ⟨⟨n, t⟩, reached, member⟩ | ⟨name, -, rfl, -⟩
  · obtain rfl := Option.some.inj found
    exact Document.ordered_of_mem_problems inside
  · obtain ⟨line, isLine, -, rfl⟩ := Schema.mem_reached_iff.1 reached
    have top := Document.ordered_of_lineage isLine
    rw [findings, List.mem_append, List.mem_flatMap] at member
    rcases member with ⟨c, child, member⟩ | member
    · have below := Tag.concat_mem_lineages_iff.2 ⟨isLine, child⟩
      have ordered := Document.ordered_of_mem (Tag.mem_preorder_of_lineage below
        (List.mem_append_right _ List.mem_cons_self))
      rcases span_of_mem_childFindings member with same | same
      · obtain rfl := Option.some.inj (same.symm.trans found)
        exact ordered.parts c.nameSpan List.mem_cons_self
      · exact ordered.span place (same ▸ found)
    · rcases span_of_mem_ownFindings member with same | ⟨s, part, same⟩
      · exact top.span place (same ▸ found)
      · obtain rfl := Option.some.inj (same.symm.trans found)
        exact top.parts s part
  · cases found

end Validation

namespace Editor

variable {text : List Char}

/-! ## Diagnostics -/

theorem Diagnostic.proper_of_mem {schema : Schema} {settings : Settings} {found : List Diagnostic}
    (addressable : Addressable text) (given : diagnostics? schema settings text = some found)
    {d : Diagnostic} (member : d ∈ found) : d.region.Proper text := by
  rw [diagnostics?, Option.ite_none_right_eq_some] at given
  obtain rfl := Option.some.inj given.2
  obtain ⟨f, inside, rfl⟩ := List.mem_map.1 member
  have ordered := Validation.ordered_of_mem_validate inside
  rw [Diagnostic.ofFinding]
  cases place : f.span with
  | none =>
      rw [← Region.ofSpan_zero text]
      exact Region.proper_ofSpan addressable (Nat.le_refl 0)
  | some s => exact Region.proper_ofSpan addressable (ordered s place)

/-! ## Hovers -/

namespace Hover

/-- The name that is found among tags is one of theirs. -/
theorem exists_tag_of_locate? {offset : Nat} {ts : List Tag} {path : List QualifiedName}
    {target : Target} (found : locate? offset ts = some (path, target)) :
    ∃ t ∈ Tag.preorder ts, target.span ∈ t.nameSpans := by
  rw [locate?_eq_find?] at found
  obtain ⟨name, first, same⟩ := Option.map_eq_some_iff.1 found
  obtain ⟨-, rfl⟩ := Prod.mk.inj same
  rw [← List.mem_flatMap, ← map_span_names]
  exact List.mem_map_of_mem (List.mem_of_find?_eq_some first)

theorem proper_of_at? {schema : Schema} {settings : Settings} {offset : Nat} {h : Hover}
    (addressable : Addressable text) (shown : at? schema settings text offset = some h) :
    h.region.Proper text := by
  rw [at?, Option.ite_none_right_eq_some] at shown
  obtain ⟨-, shown⟩ := shown
  obtain ⟨⟨path, target⟩, found, shown⟩ := Option.bind_eq_some_iff.1 shown
  obtain ⟨n, -, shown⟩ := Option.bind_eq_some_iff.1 shown
  obtain ⟨⟨markdown, s⟩, told, same⟩ := Option.bind_eq_some_iff.1 shown
  obtain rfl := Option.some.inj same
  obtain ⟨t, member, part⟩ := exists_tag_of_locate? found
  obtain rfl := span_of_ofTarget? told
  have ordered := Document.ordered_of_mem member
  exact Region.proper_ofSpan addressable (ordered.parts _ (List.mem_append_left _ part))

end Hover

/-! ## Outlines -/

namespace Symbol

mutual

/-- The symbols below a symbol, each before its own children. -/
def descendants : Symbol → List Symbol
  | ⟨_, _, _, _, _, children⟩ => preorder children

/-- Symbols with all that is below them. -/
def preorder : List Symbol → List Symbol
  | [] => []
  | s :: ss => s :: (descendants s ++ preorder ss)

end

/-- Symbols of which each ends before the next one begins. -/
def InOrder (symbols : List Symbol) : Prop :=
  symbols.Pairwise fun a b => a.region.stop ≤ b.region.start

/-- A symbol has a name, and its regions and those of its children are nested. -/
structure Placed (text : List Char) (s : Symbol) : Prop where
  name : s.name ≠ ""
  region : s.region.Proper text
  selection : s.selection.Proper text
  selected : s.selection.Within s.region
  children : ∀ c ∈ s.children, c.region.Within s.region
  siblings : InOrder s.children

theorem ofTags_eq_map (text : List Char) (ts : List Tag) :
    ofTags text ts = ts.map (ofTag text) := by
  induction ts with
  | nil => rfl
  | cons t ts ih => rw [ofTags, ih, List.map_cons]

/-- The symbols of a tree are those of its tags, in the same order. -/
theorem preorder_ofTags (text : List Char) : ∀ ts : List Tag,
    preorder (ofTags text ts) = (Tag.preorder ts).map (ofTag text)
  | [] => rfl
  | t@⟨space, name, nameSpan, span, values, attributes, children⟩ :: ts => by
      have below := preorder_ofTags text children
      have behind := preorder_ofTags text ts
      rw [ofTags, preorder, behind, Tag.preorder, ofTag, descendants, below, Tag.descendants,
        List.map_cons, List.map_append]
      rfl

section OfTag

variable {t : Tag}

theorem name_ofTag (text : List Char) (t : Tag) : (ofTag text t).name = t.qualifiedName := by
  cases t
  rfl

theorem selection_ofTag (text : List Char) (t : Tag) :
    (ofTag text t).selection = Region.ofSpan text t.nameSpan := by
  cases t
  rfl

theorem children_ofTag (text : List Char) (t : Tag) :
    (ofTag text t).children = t.children.map (ofTag text) := by
  cases t
  exact ofTags_eq_map text _

theorem region_ofTag (placed : t.WellPlaced text) :
    (ofTag text t).region = Region.ofSpan text t.place := by
  have place := placed.span
  cases t
  rw [ofTag, place]
  rfl

end OfTag

/-- The symbols of tags that follow each other do so, too. -/
theorem inOrder_map {ts : List Tag} (addressable : Addressable text)
    (placed : ∀ t ∈ ts, t.WellPlaced text)
    (order : ts.Pairwise fun a b => a.place.stop ≤ b.place.start) :
    InOrder (ts.map (ofTag text)) := by
  rw [InOrder, List.pairwise_map]
  refine order.imp_of_mem fun {a b} left right apart => ?_
  rw [region_ofTag (placed a left), region_ofTag (placed b right)]
  exact Position.ofOffset_mono apart (addressable _) (addressable _)

theorem placed_ofTag {t : Tag} (addressable : Addressable text)
    (member : t ∈ Tag.preorder (Document.ofText text).root.children) :
    (ofTag text t).Placed text := by
  have each := (Document.arranged text).each
  have placed := each t member
  have ordered := Document.ordered_of_mem member
  have below : ∀ c ∈ t.children, c.WellPlaced text :=
    fun c child => each c (Tag.mem_preorder_of_child member child)
  have named : t.nameSpan ∈ t.nameSpans ++ t.valueSpans :=
    List.mem_append_left _ List.mem_cons_self
  obtain ⟨low, high⟩ := (placed.parts _ named).2
  constructor
  · rw [name_ofTag]
    exact Document.qualifiedName_ne_of_mem member
  · rw [region_ofTag placed]
    exact Region.proper_ofSpan addressable placed.bounds.1
  · rw [selection_ofTag]
    exact Region.proper_ofSpan addressable (ordered.parts _ named)
  · rw [selection_ofTag, region_ofTag placed]
    exact Region.within_ofSpan addressable low high
  · rw [children_ofTag, region_ofTag placed]
    intro s inside
    obtain ⟨c, child, rfl⟩ := List.mem_map.1 inside
    obtain ⟨low, high⟩ := placed.children c child
    rw [region_ofTag (below c child)]
    exact Region.within_ofSpan addressable low high
  · rw [children_ofTag]
    exact inOrder_map addressable below placed.siblings

end Symbol

/-- The symbols of an outline are those of the tags. -/
theorem mem_preorder_outline {symbols : List Symbol} (shown : outline? text = some symbols)
    {s : Symbol} (member : s ∈ Symbol.preorder symbols) :
    ∃ t ∈ Tag.preorder (Document.ofText text).root.children, Symbol.ofTag text t = s := by
  obtain rfl := Option.some.inj (Option.ite_none_left_eq_some.1 shown).2
  rw [Symbol.preorder_ofTags] at member
  exact List.mem_map.1 member

/-- All symbols have names. -/
theorem outline_named {symbols : List Symbol} (shown : outline? text = some symbols) :
    ∀ s ∈ Symbol.preorder symbols, s.name ≠ "" := by
  intro s member
  obtain ⟨t, inside, rfl⟩ := mem_preorder_outline shown member
  rw [Symbol.name_ofTag]
  exact Document.qualifiedName_ne_of_mem inside

theorem outline_placed {symbols : List Symbol} (addressable : Addressable text)
    (shown : outline? text = some symbols) :
    Symbol.InOrder symbols ∧ ∀ s ∈ Symbol.preorder symbols, s.Placed text := by
  refine ⟨?_, fun s member => ?_⟩
  · obtain ⟨row, each⟩ := Document.arranged text
    obtain rfl := Option.some.inj (Option.ite_none_left_eq_some.1 shown).2
    rw [Symbol.ofTags_eq_map]
    exact Symbol.inOrder_map addressable (fun t top => each t (Tag.mem_preorder_of_mem top))
      (List.pairwise_map.1 row.pairwise)
  · obtain ⟨t, inside, rfl⟩ := mem_preorder_outline shown member
    exact Symbol.placed_ofTag addressable inside

/-! ## All regions -/

/-- **The regions of a text are well formed**, whatever is wrong with the text, if its lines and
columns have numbers of 32 bits.  Exactly then offsets further on have positions further on.  The
regions of diagnostics and of hovers begin no later than they end and lie in the text, and in an
outline the regions of each symbol and those of its children are nested.  Whatever the numbers are,
the line of a position is one of the text, and each symbol has a name. -/
theorem regions_wellFormed (text : List Char) :
    ((∀ a b, a ≤ b → Position.ofOffset text a ≤ Position.ofOffset text b) ↔ Addressable text) ∧
    (∀ a, (Position.ofOffset text a).line.toNat < (lines text).length) ∧
    (∀ symbols, outline? text = some symbols → ∀ s ∈ Symbol.preorder symbols, s.name ≠ "") ∧
    (Addressable text →
      (∀ schema settings found, diagnostics? schema settings text = some found →
        ∀ d ∈ found, d.region.Proper text) ∧
      (∀ schema settings offset h, Hover.at? schema settings text offset = some h →
        h.region.Proper text) ∧
      (∀ symbols, outline? text = some symbols →
        Symbol.InOrder symbols ∧ ∀ s ∈ Symbol.preorder symbols, s.Placed text)) := by
  refine ⟨Position.ofOffset_mono_iff text, Position.line_ofOffset_lt text, ?_, ?_⟩
  · exact fun _ shown => outline_named shown
  · intro addressable
    refine ⟨?_, ?_, ?_⟩
    · exact fun _ _ _ given _ member => Diagnostic.proper_of_mem addressable given member
    · exact fun _ _ _ _ shown => Hover.proper_of_at? addressable shown
    · exact fun _ shown => outline_placed addressable shown

/-- On a line of 2³² characters the position of its end is in front of those of its characters. -/
theorem order_lost_on_long_line :
    let text := List.replicate UInt32.size 'a'
    ¬ Position.ofOffset text 1 ≤ Position.ofOffset text UInt32.size := by
  intro text
  have first : Place.ofOffset text 1 = ⟨0, 1⟩ := Place.ofOffset_replicate (by decide)
  have last : Place.ofOffset text UInt32.size = ⟨0, UInt32.size⟩ :=
    Place.ofOffset_replicate (Nat.le_refl _)
  rw [Position.le_def, Position.ofOffset, Position.ofOffset, first, last]
  decide

/-- A text with three kinds of line breaks, a block that is not closed and an attribute without a
value. -/
theorem regions_wellFormed_malformed :
    let text := "a \x7b\r\n é k=\n b \"c\"\r".toList
    Addressable text ∧ ∃ found symbols, diagnostics? Schema.recipe {} text = some found ∧
      found.length = 4 ∧ outline? text = some symbols ∧
      (Symbol.preorder symbols).map Symbol.name = ["a", "é", "b"] ∧
      (∀ d ∈ found, d.region.Proper text) ∧ Symbol.InOrder symbols ∧
      ∀ s ∈ Symbol.preorder symbols, s.Placed text := by
  intro text
  have document : Document.ofText "a \x7b\r\n é k=\n b \"c\"\r".toList =
      ⟨Tag.root [⟨none, "a", ⟨0, 1⟩, some ⟨0, 18⟩, [], [],
        [⟨none, "é", ⟨6, 8⟩, some ⟨6, 11⟩, [], [], []⟩,
          ⟨none, "b", ⟨13, 14⟩, some ⟨13, 18⟩, [⟨.string, "c", ⟨15, 18⟩⟩], [], []⟩]⟩],
        [⟨⟨2, 3⟩, .missingClosingBrace⟩, ⟨⟨9, 11⟩, .attributeWithoutValue "k"⟩]⟩ := by cbv
  have read : Document.ofText text = _ := document
  have short : text.length < UInt32.size := by decide
  have addressable := addressable_of_length short
  have count : (validate Schema.recipe (Document.ofText text)).length = 4 := by
    rw [read]
    decide +kernel
  have shown : diagnostics? Schema.recipe {} text =
    some ((validate Schema.recipe (Document.ofText text)).map (Diagnostic.ofFinding text)) := rfl
  have outlined : outline? text =
      some (Symbol.ofTags text (Document.ofText text).root.children) := by
    rw [outline?, read]
    rfl
  obtain ⟨-, -, -, placed⟩ := regions_wellFormed text
  obtain ⟨proper, -, nested⟩ := placed addressable
  refine ⟨addressable, _, _, shown, ?_, outlined, ?_, proper _ _ _ shown, nested _ outlined⟩
  · rw [List.length_map, count]
  · rw [read]
    rfl

end Editor

end PackageRecipe
