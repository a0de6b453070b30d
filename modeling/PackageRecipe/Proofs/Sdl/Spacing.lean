import Mathlib
import PackageRecipe.Proofs.Sdl.Grammar

/-!
# Blanks and comments between tokens

What a text holds between its tokens has no meaning, with one exception.  The name
of an attribute with a namespace is not read from its token: it is all that the
text holds behind the first colon of its place, so that blanks and comments behind
the colon become a part of the name.

## Main Definitions

* `Tag.bare` — a tag without places
* `lexemes` — the tokens of a text without places and gaps
* `colonTails` — what a text holds behind the colons of its attribute names

## Design Notes

Whatever is read from tokens is compared with what is read from the same tokens
without places and gaps, `Token.bare`: one lemma for each step from tokens to tags
says that the step gives the same on both (`ofTokens_bare`, `items_bare` and so on).
Two texts with the same lexemes are never compared directly.  `Tag.strip` leaves
open what is kept of an attribute, so that the tree without the names in question
and the tree with them are cases of one definition.
-/

namespace PackageRecipe.Sdl

open PackageRecipe.Text

/-! ## Trees without places -/

/-- A value without its place. -/
def Value.bare (v : Value) : Value := { v with span := ⟨0, 0⟩ }

namespace Attribute

/-- An attribute without places. -/
def bare (a : Attribute) : Attribute := { a with nameSpan := ⟨0, 0⟩, value := a.value.bare }

/-- An attribute without places, and without its name if that has a namespace. -/
def masked (a : Attribute) : Attribute :=
  { a.bare with name := if a.space.isSome then "" else a.name }

end Attribute

namespace Tag

mutual

/-- A tag without places, of whose attributes `keep` is kept. -/
def strip (keep : Attribute → Attribute) : Tag → Tag
  | ⟨space, name, _, _, values, attributes, children⟩ =>
    ⟨space, name, ⟨0, 0⟩, none, values.map Value.bare, attributes.map keep, stripAll keep children⟩

def stripAll (keep : Attribute → Attribute) : List Tag → List Tag
  | [] => []
  | t :: ts => strip keep t :: stripAll keep ts

end

/-- A tag without places, with all below it. -/
def bare (t : Tag) : Tag := t.strip Attribute.bare

theorem stripAll_eq_map (keep : Attribute → Attribute) (ts : List Tag) :
    stripAll keep ts = ts.map (strip keep) := by
  induction ts with
  | nil => rfl
  | cons t ts ih => rw [stripAll, ih, List.map_cons]

/-- The attributes of some tags and of all below them, in reading order. -/
def allAttributes (ts : List Tag) : List Attribute :=
  (preorder ts).flatMap attributes

theorem allAttributes_cons (space : Option String) (name : String) (nameSpan : Span)
    (span : Option Span) (values : List Value) (attributes : List Attribute)
    (children ts : List Tag) :
    allAttributes (⟨space, name, nameSpan, span, values, attributes, children⟩ :: ts) =
      attributes ++ (allAttributes children ++ allAttributes ts) := by
  simp [allAttributes, preorder, descendants]

theorem allAttributes_append (ts us : List Tag) :
    allAttributes (ts ++ us) = allAttributes ts ++ allAttributes us := by
  rw [allAttributes, preorder_append, List.flatMap_append]
  rfl

end Tag

/-! ## The names that are masked -/

/-- The names of those attributes that have a namespace. -/
def spacedNames (as : List Attribute) : List String :=
  (as.filter (·.space.isSome)).map Attribute.name

theorem spacedNames_append (as bs : List Attribute) :
    spacedNames (as ++ bs) = spacedNames as ++ spacedNames bs := by
  simp [spacedNames]

/-- Masked attributes and the names that are missing give the attributes back. -/
theorem Attribute.bare_of_masked {as bs : List Attribute} {xs ys : List String}
    (masked : as.map Attribute.masked = bs.map Attribute.masked)
    (names : spacedNames as ++ xs = spacedNames bs ++ ys) :
    as.map Attribute.bare = bs.map Attribute.bare ∧ xs = ys := by
  induction as generalizing bs with
  | nil =>
      obtain rfl : bs = [] := by simpa using masked.symm
      exact ⟨rfl, names⟩
  | cons a as ih =>
      cases bs with
      | nil => simp at masked
      | cons b bs =>
          rw [List.map_cons, List.map_cons, List.cons.injEq] at masked
          obtain ⟨first, rest⟩ := masked
          have space : a.space = b.space := congrArg (·.space) first
          have value : a.value.bare = b.value.bare := congrArg (·.value) first
          have name := congrArg (·.name) first
          rw [← List.singleton_append (l := as), ← List.singleton_append (l := bs),
            spacedNames_append, spacedNames_append, List.append_assoc, List.append_assoc] at names
          -- The name is either not masked or the first of the missing names.
          have both : a.name = b.name ∧ spacedNames as ++ xs = spacedNames bs ++ ys := by
            cases spaced : a.space with
            | none =>
                have spaced' : b.space = none := space ▸ spaced
                simpa [Attribute.masked, Attribute.bare, spacedNames, spaced, spaced'] using
                  And.intro name names
            | some s =>
                have spaced' : b.space = some s := space ▸ spaced
                simpa [spacedNames, spaced, spaced'] using names
          obtain ⟨others, tails⟩ := ih rest both.2
          refine ⟨?_, tails⟩
          rw [List.map_cons, List.map_cons, others]
          simp [Attribute.bare, space, value, both.1]

/-- Masked trees and the names that are missing in them give the trees back. -/
theorem Tag.bare_of_masked : ∀ (ts us : List Tag) (xs ys : List String),
    stripAll Attribute.masked ts = stripAll Attribute.masked us →
    spacedNames (allAttributes ts) ++ xs = spacedNames (allAttributes us) ++ ys →
    stripAll Attribute.bare ts = stripAll Attribute.bare us ∧ xs = ys
  | [], [], _, _, _, names => ⟨rfl, names⟩
  | [], _ :: _, _, _, masked, _ => by simp [stripAll] at masked
  | _ :: _, [], _, _, masked, _ => by simp [stripAll] at masked
  | ⟨space, name, nameSpan, span, values, attributes, children⟩ :: ts,
    ⟨space', name', nameSpan', span', values', attributes', children'⟩ :: us, xs, ys, masked,
    names => by
      simp only [stripAll, strip, List.cons.injEq, Tag.mk.injEq, true_and] at masked ⊢
      obtain ⟨⟨sameSpace, sameName, sameValues, sameAttributes, sameChildren⟩, sameRest⟩ := masked
      simp only [allAttributes_cons, spacedNames_append, List.append_assoc] at names
      -- The names come in reading order: those of the tag, of its children, of the rest.
      obtain ⟨here, names⟩ := Attribute.bare_of_masked sameAttributes names
      obtain ⟨below, names⟩ := bare_of_masked children children' _ _ sameChildren names
      obtain ⟨behind, names⟩ := bare_of_masked ts us xs ys sameRest names
      exact ⟨⟨⟨sameSpace, sameName, sameValues, here, below⟩, behind⟩, names⟩

theorem Tag.allAttributes_stripAll (keep : Attribute → Attribute) :
    ∀ ts : List Tag, allAttributes (stripAll keep ts) = (allAttributes ts).map keep
  | [] => rfl
  | ⟨space, name, nameSpan, span, values, attributes, children⟩ :: ts => by
      rw [stripAll, strip, allAttributes_cons, allAttributes_cons,
        allAttributes_stripAll keep children, allAttributes_stripAll keep ts, List.map_append,
        List.map_append]

theorem spacedNames_bare (as : List Attribute) :
    spacedNames (as.map Attribute.bare) = spacedNames as := by
  induction as with
  | nil => rfl
  | cons a as ih =>
      rw [List.map_cons, ← List.singleton_append, spacedNames_append, ih,
        ← List.singleton_append (l := as), spacedNames_append]
      cases spaced : a.space <;> simp [spacedNames, Attribute.bare, spaced]

/-- **Trees that agree but for the masked names agree exactly if these names do.** -/
theorem Tag.bare_iff {ts us : List Tag}
    (masked : stripAll Attribute.masked ts = stripAll Attribute.masked us) :
    stripAll Attribute.bare ts = stripAll Attribute.bare us ↔
      spacedNames (allAttributes ts) = spacedNames (allAttributes us) := by
  constructor
  · intro same
    have attributes := congrArg (fun ts => spacedNames (allAttributes ts)) same
    simpa only [allAttributes_stripAll, spacedNames_bare] using attributes
  · intro names
    exact (bare_of_masked ts us [] [] masked (by rw [names])).1

/-! ## Statements of tokens without places -/

/-- A token without its place and without the gap in front of it. -/
def Token.bare (t : Token) : Token := { t with gap := [], start := 0 }

namespace Statement

mutual

/-- A statement of tokens without places. -/
def bare : Statement → Statement
  | separator t => separator t.bare
  | stray t => stray t.bare
  | line ws => line (ws.map Token.bare)
  | block ws o b c => block (ws.map Token.bare) o.bare (bareAll b) (c.map Token.bare)

def bareAll : List Statement → List Statement
  | [] => []
  | s :: r => bare s :: bareAll r

end

mutual

theorem bare_eq_map : ∀ s : Statement, bare s = map Token.bare s
  | separator _ => rfl
  | stray _ => rfl
  | line _ => rfl
  | block _ _ b _ => by rw [bare, map, bareAll_eq_mapAll b]

theorem bareAll_eq_mapAll : ∀ ss : List Statement, bareAll ss = mapAll Token.bare ss
  | [] => rfl
  | s :: r => by rw [bareAll, mapAll, bare_eq_map s, bareAll_eq_mapAll r]

end

/-- The places of tokens have no influence on the statements. -/
theorem ofTokens_bare (ts : List Token) :
    ofTokens (ts.map Token.bare) = bareAll (ofTokens ts) := by
  have kinds (t : Token) : t.bare.kind = t.kind := rfl
  rw [ofTokens_map kinds, bareAll_eq_mapAll]

end Statement

/-! ## Tags of tokens without places -/

namespace Token

variable (t : Token)

@[simp] theorem bare_kind : t.bare.kind = t.kind := rfl

@[simp] theorem bare_word : t.bare.word = t.word := rfl

@[simp] theorem bare_isName : t.bare.isName = t.isName := rfl

/-- The value of a token depends on its place for its own place only. -/
theorem bare_value? : t.bare.value?.map Value.bare = t.value?.map Value.bare := by
  have literal : t.bare.literal? = t.literal? := rfl
  rw [value?, value?, literal, Option.map_map, Option.map_map]
  rfl

theorem bare_value?_eq_none : t.bare.value? = none ↔ t.value? = none := by
  have both := congrArg (· = none) t.bare_value?
  simpa using both

end Token

namespace Head

/-- What an item adds to a tag, without places and without the name of an attribute
that has a namespace. -/
def Item.masked (i : Item) : Option Value × Option Attribute :=
  (i.value?.map Value.bare, i.attribute?.map Attribute.masked)

theorem takeValue_bare (ts : List Token) :
    (takeValue (ts.map Token.bare)).1.map (·.2.bare) = (takeValue ts).1.map (·.2.bare) ∧
      (takeValue (ts.map Token.bare)).2 = (takeValue ts).2.map Token.bare := by
  cases ts with
  | nil => exact ⟨rfl, rfl⟩
  | cons t ts =>
      have same := t.bare_value?
      cases value : t.value? with
      | none =>
          have none := t.bare_value?_eq_none.2 value
          simp [takeValue, value, none]
      | some v =>
          rw [value] at same
          obtain ⟨v', value', bare⟩ := Option.map_eq_some_iff.1 same
          simp [takeValue, value, value', bare]

theorem masked_attribute (space : Option String) (name name' : String) (nameSpan nameSpan' : Span)
    (e e' : Token) {value value' : Option (Token × Value)} (named : space = none → name = name')
    (same : value.map (·.2.bare) = value'.map (·.2.bare)) :
    (Item.attribute space name nameSpan e value).masked =
      (Item.attribute space name' nameSpan' e' value').masked := by
  rcases value with _ | ⟨t, v⟩ <;> rcases value' with _ | ⟨t', v'⟩ <;> simp at same
  · rfl
  · cases space with
    | none =>
        simp [Item.masked, Item.value?, Item.attribute?, Attribute.masked, Attribute.bare, same,
          named rfl]
    | some space =>
        simp [Item.masked, Item.value?, Item.attribute?, Attribute.masked, Attribute.bare, same]

theorem takeItem_bare (t : Token) (rest : List Token) :
    (takeItem t.bare (rest.map Token.bare)).1.masked = (takeItem t rest).1.masked ∧
      (takeItem t.bare (rest.map Token.bare)).2 = (takeItem t rest).2.map Token.bare := by
  have word : (Item.word t.bare).masked = (Item.word t).masked := by
    simp [Item.masked, Item.value?, Item.attribute?, t.bare_value?]
  rcases rest with _ | ⟨a, rest⟩
  · exact ⟨word, rfl⟩
  · by_cases named : (t.isName && a.kind == .equals) = true
    · obtain ⟨value, behind⟩ := takeValue_bare rest
      simp only [takeItem, List.map_cons, Token.bare_isName, Token.bare_kind, Token.bare_word,
        named, if_true]
      exact ⟨masked_attribute _ _ _ _ _ _ _ (fun _ => rfl) value, behind⟩
    · rcases rest with _ | ⟨b, _ | ⟨c, rest⟩⟩
      · simp [takeItem, named, word]
      · simp [takeItem, named, word]
      · by_cases spaced :
            (t.isName && a.kind == .colon && b.isName && c.kind == .equals) = true
        · obtain ⟨value, behind⟩ := takeValue_bare rest
          simp only [takeItem, List.map_cons, Token.bare_isName, Token.bare_kind, Token.bare_word,
            named, spaced, if_true, Bool.false_eq_true, if_false]
          exact ⟨masked_attribute _ _ _ _ _ _ _ (by simp) value, behind⟩
        · simp [takeItem, named, spaced, word]

theorem items_bare (ts : List Token) :
    (items (ts.map Token.bare)).map Item.masked = (items ts).map Item.masked := by
  induction ts using items.induct with
  | case1 => rfl
  | case2 t rest ih =>
      obtain ⟨item, behind⟩ := takeItem_bare t rest
      rw [List.map_cons, items, items, List.map_cons, List.map_cons, item, behind, ih]

/-- A tag read so far, without places and without the names of the attributes that
have a namespace. -/
def masked (h : Head) : Head :=
  { h with nameSpan := ⟨0, 0⟩, values := h.values.map Value.bare,
           attributes := h.attributes.map Attribute.masked, stop := 0 }

theorem masked_addItems (h : Head) (is : List Item) :
    (h.addItems is).1.masked =
      { h.masked with
        values := h.masked.values ++ (is.map Item.masked).filterMap Prod.fst
        attributes := h.masked.attributes ++ (is.map Item.masked).filterMap Prod.snd } := by
  obtain ⟨stop, same⟩ := addItems_eq h is
  rw [same]
  simp [masked, List.filterMap_map, List.map_filterMap, Item.masked, Function.comp_def]

theorem ofWords?_bare (ws : List Token) :
    (ofWords? (ws.map Token.bare)).map (fun p => (p.1.masked, p.2)) =
      (ofWords? ws).map (fun p => (p.1.masked, p.2.map Token.bare)) := by
  rcases ws with _ | ⟨first, rest⟩
  · rfl
  · by_cases name : first.isName
    · rcases rest with _ | ⟨c, _ | ⟨n, rest⟩⟩
      · simp [ofWords?, name, masked]
      · simp [ofWords?, name, masked]
      · by_cases spaced : (c.kind == .colon && n.isName) = true
        · simp [ofWords?, name, spaced, masked]
        · simp [ofWords?, name, spaced, masked]
    · have value := first.bare_value?
      cases literal : first.value? with
      | none => simp [ofWords?, name, literal, first.bare_value?_eq_none.2 literal]
      | some v =>
          rw [literal] at value
          obtain ⟨v', literal', bare⟩ := Option.map_eq_some_iff.1 value
          simp [ofWords?, name, literal, literal', masked, bare]

/-- The tag that is read from words, but for the masked names, does not depend on
their places. -/
theorem read?_bare (ws : List Token) :
    (read? (ws.map Token.bare)).map (·.1.masked) = (read? ws).map (·.1.masked) := by
  have begun := ofWords?_bare ws
  rw [read?, read?, Option.map_map, Option.map_map]
  cases found : ofWords? ws with
  | none =>
      have none : ofWords? (ws.map Token.bare) = none := by simpa [found] using begun
      rw [none, Option.map_none]
  | some p =>
      obtain ⟨h, rest⟩ := p
      rw [found] at begun
      obtain ⟨⟨h', rest'⟩, found', same⟩ := Option.map_eq_some_iff.1 begun
      obtain ⟨sameHead, rfl⟩ : h'.masked = h.masked ∧ rest' = rest.map Token.bare := by
        simpa using same
      rw [found']
      simp only [Option.map_some, Function.comp_apply, masked_addItems, items_bare, sameHead]

theorem read?_bare_cases (ws : List Token) :
    (read? ws = none ∧ read? (ws.map Token.bare) = none) ∨
      ∃ p q, read? ws = some p ∧ read? (ws.map Token.bare) = some q ∧ q.1.masked = p.1.masked := by
  have same := read?_bare ws
  cases read : read? ws with
  | none =>
      rw [read] at same
      exact .inl ⟨rfl, by simpa using same⟩
  | some p =>
      rw [read] at same
      obtain ⟨q, read', masked⟩ := Option.map_eq_some_iff.1 same
      exact .inr ⟨p, q, rfl, read', masked⟩

theorem strip_toTag {h h' : Head} (same : h.masked = h'.masked) {children children' : List Tag}
    (below : Tag.stripAll Attribute.masked children = Tag.stripAll Attribute.masked children')
    (start stop start' stop' : Nat) :
    (h.toTag start stop children).strip Attribute.masked =
      (h'.toTag start' stop' children').strip Attribute.masked := by
  have strip (h : Head) (start stop : Nat) (children : List Tag) :
      (h.toTag start stop children).strip Attribute.masked =
        ⟨h.masked.space, h.masked.name, ⟨0, 0⟩, none, h.masked.values, h.masked.attributes,
          Tag.stripAll Attribute.masked children⟩ := by
    rw [toTag, Tag.strip]
    rfl
  rw [strip, strip, same, below]

end Head

/-- The tag of a statement, at a level with `depth` blocks open around it. -/
def Statement.tag? (textStop depth : Nat) : Statement → Option Tag
  | separator _ => none
  | stray _ => none
  | line ws => do
    let first ← ws.head?
    let (h, _) ← Head.read? ws
    return h.toTag first.start h.stop []
  | block ws o b c => do
    let first ← ws.head?
    let (h, _) ← Head.read? ws
    return if depth < maxDepth then
      h.toTag first.start ((c.map Token.stop).getD (max o.stop textStop))
        (tagsOf textStop (depth + 1) b).1
    else h.toTag first.start ((c.map Token.stop).getD o.stop) []

/-- Each statement gives one tag at most. -/
theorem tagsOf_cons (textStop depth : Nat) (s : Statement) (r : List Statement) :
    (tagsOf textStop depth (s :: r)).1 =
      (s.tag? textStop depth).toList ++ (tagsOf textStop depth r).1 := by
  cases s with
  | separator t => simp [tagsOf, Statement.tag?]
  | stray t => simp [tagsOf, Statement.tag?]
  | line ws =>
      cases ws with
      | nil => simp [tagsOf, Statement.tag?]
      | cons first ws =>
          cases read : Head.read? (first :: ws) <;> simp [tagsOf, Statement.tag?, read]
  | block ws o b c =>
      cases ws with
      | nil => simp [tagsOf, Statement.tag?]
      | cons first ws =>
          cases read : Head.read? (first :: ws) with
          | none => simp [tagsOf, Statement.tag?, read]
          | some p =>
              by_cases shallow : depth < maxDepth <;>
                simp [tagsOf, Statement.tag?, read, shallow]

mutual

theorem Statement.tag?_bare (n n' depth : Nat) : ∀ s : Statement,
    (s.bare.tag? n depth).map (Tag.strip Attribute.masked) =
      (s.tag? n' depth).map (Tag.strip Attribute.masked)
  | .separator _ => rfl
  | .stray _ => rfl
  | .line [] => rfl
  | .line (first :: ws) => by
      rcases Head.read?_bare_cases (first :: ws) with ⟨read, read'⟩ | ⟨p, q, read, read', same⟩
      · rw [List.map_cons] at read'
        simp [Statement.bare, Statement.tag?, read, read']
      · rw [List.map_cons] at read'
        simpa [Statement.bare, Statement.tag?, read, read'] using Head.strip_toTag same rfl _ _ _ _
  | .block [] _ _ _ => rfl
  | .block (first :: ws) o b c => by
      have below := tagsOf_bare n n' (depth + 1) b
      rcases Head.read?_bare_cases (first :: ws) with ⟨read, read'⟩ | ⟨p, q, read, read', same⟩
      · rw [List.map_cons] at read'
        simp [Statement.bare, Statement.tag?, read, read']
      · rw [List.map_cons] at read'
        by_cases shallow : depth < maxDepth
        · simpa [Statement.bare, Statement.tag?, read, read', shallow] using
            Head.strip_toTag same below _ _ _ _
        · simpa [Statement.bare, Statement.tag?, read, read', shallow] using
            Head.strip_toTag same rfl _ _ _ _

/-- The tags of statements, but for the masked names, do not depend on places. -/
theorem tagsOf_bare (n n' depth : Nat) : ∀ ss : List Statement,
    Tag.stripAll Attribute.masked (tagsOf n depth (Statement.bareAll ss)).1 =
      Tag.stripAll Attribute.masked (tagsOf n' depth ss).1
  | [] => by simp [Statement.bareAll, tagsOf]
  | s :: r => by
      have first := Statement.tag?_bare n n' depth s
      have rest := tagsOf_bare n n' depth r
      rw [Tag.stripAll_eq_map, Tag.stripAll_eq_map] at rest ⊢
      rw [Statement.bareAll, tagsOf_cons, tagsOf_cons, List.map_append, List.map_append, rest,
        ← Option.toList_map, ← Option.toList_map, first]

end

/-! ## Where the names with a namespace come from -/

/-- Three tokens that follow each other: a namespace, a colon and the name that an
attribute is given by them. -/
def SpacedBy (ts : List Token) (a : Attribute) : Prop :=
  ∃ s c n, [s, c, n] <:+: ts ∧ s.kind = .identifier ∧ a.name = Head.spacedName c n ∧
    a.nameSpan = ⟨s.start, n.stop⟩

theorem SpacedBy.of_part {ts us : List Token} {a : Attribute} (spaced : SpacedBy us a)
    (part : us <:+: ts) : SpacedBy ts a := by
  obtain ⟨s, c, n, inside, rest⟩ := spaced
  exact ⟨s, c, n, inside.trans part, rest⟩

namespace Head

theorem spacedBy_of_mem_read? {ws : List Token} {h : Head} {ps : List Problem} {a : Attribute}
    (read : read? ws = some (h, ps)) (member : a ∈ h.attributes) (spaced : a.space.isSome) :
    SpacedBy ws a := by
  have named := nameIn_of_read? read member
  obtain ⟨space, name, nameSpan, value⟩ := a
  cases named with
  | plain => cases spaced
  | spaced row space _ _ => exact ⟨_, _, _, row, Token.kind_of_isName space, rfl, rfl⟩

end Head

theorem Tag.allAttributes_toTag (h : Head) (start stop : Nat) (children : List Tag) :
    allAttributes [h.toTag start stop children] = h.attributes ++ allAttributes children := by
  rw [Head.toTag, allAttributes_cons]
  exact congrArg _ (List.append_nil _)

mutual

theorem spacedBy_of_mem_tag? (n depth : Nat) : ∀ (s : Statement) {a : Attribute},
    a ∈ Tag.allAttributes (s.tag? n depth).toList → a.space.isSome → SpacedBy s.tokens a
  | .separator _, _, member, _ => by
      simp [Statement.tag?, Tag.allAttributes, Tag.preorder] at member
  | .stray _, _, member, _ => by
      simp [Statement.tag?, Tag.allAttributes, Tag.preorder] at member
  | .line [], _, member, _ => by simp [Statement.tag?, Tag.allAttributes, Tag.preorder] at member
  | .line (first :: ws), _, member, spaced => by
      cases read : Head.read? (first :: ws) with
      | none => simp [Statement.tag?, read, Tag.allAttributes, Tag.preorder] at member
      | some p =>
          simp only [Statement.tag?, read, List.head?_cons, Option.bind_eq_bind, Option.bind_some,
            Option.pure_def, Option.toList_some, Tag.allAttributes_toTag] at member
          rcases List.mem_append.1 member with member | member
          · exact Head.spacedBy_of_mem_read? read member spaced
          · simp [Tag.allAttributes, Tag.preorder] at member
  | .block [] _ _ _, _, member, _ => by
      simp [Statement.tag?, Tag.allAttributes, Tag.preorder] at member
  | .block (first :: ws) o b c, _, member, spaced => by
      cases read : Head.read? (first :: ws) with
      | none => simp [Statement.tag?, read, Tag.allAttributes, Tag.preorder] at member
      | some p =>
          simp only [Statement.tag?, read, List.head?_cons, Option.bind_eq_bind, Option.bind_some,
            Option.pure_def, Option.toList_some] at member
          have own (member : _ ∈ p.1.attributes) :
              SpacedBy ((first :: ws) ++ o :: (Statement.tokensOfList b ++ c.toList)) _ :=
            (Head.spacedBy_of_mem_read? read member spaced).of_part
              (List.prefix_append _ _).isInfix
          by_cases shallow : depth < maxDepth
          · rw [if_pos shallow, Tag.allAttributes_toTag] at member
            rcases List.mem_append.1 member with member | member
            · exact own member
            · exact (spacedBy_of_mem_tagsOf n (depth + 1) b member spaced).of_part
                ⟨first :: ws ++ [o], c.toList, by simp [Statement.tokens]⟩
          · rw [if_neg shallow, Tag.allAttributes_toTag] at member
            rcases List.mem_append.1 member with member | member
            · exact own member
            · simp [Tag.allAttributes, Tag.preorder] at member

/-- An attribute with a namespace has its name from three tokens in a row. -/
theorem spacedBy_of_mem_tagsOf (n depth : Nat) : ∀ (ss : List Statement) {a : Attribute},
    a ∈ Tag.allAttributes (tagsOf n depth ss).1 → a.space.isSome →
      SpacedBy (Statement.tokensOfList ss) a
  | [], _, member, _ => by simp [tagsOf, Tag.allAttributes, Tag.preorder] at member
  | s :: r, _, member, spaced => by
      rw [tagsOf_cons, Tag.allAttributes_append] at member
      rcases List.mem_append.1 member with member | member
      · exact (spacedBy_of_mem_tag? n depth s member spaced).of_part
          (List.prefix_append _ _).isInfix
      · exact (spacedBy_of_mem_tagsOf n depth r member spaced).of_part
          (List.suffix_append _ _).isInfix

end

/-! ## Texts -/

/-- What a text holds at a place. -/
def slice (text : List Char) (s : Span) : List Char :=
  takeBytes (s.stop - s.start) (dropBytes s.start text)

/-- What a text holds behind the first colon of a place. -/
def colonTail (text : List Char) (s : Span) : List Char :=
  ((slice text s).dropWhile (· != ':')).drop 1

/-- A token and what stands in front of it. -/
def Token.spelled (t : Token) : List Char := t.gap ++ t.text

theorem slice_append (before inside after : List Char) {s : Span} (start : s.start = width before)
    (stop : s.stop = width before + width inside) :
    slice (before ++ (inside ++ after)) s = inside := by
  rw [slice, start, stop, dropBytes_width_append, Nat.add_sub_cancel_left, takeBytes_width_append]

/-- The tokens of pieces spell them out, but for what stands behind the last. -/
theorem Token.spelled_ofPieces (start : Nat) (gap : List Char) (ps : List Piece) :
    (ofPieces start gap ps).flatMap spelled ++ gapBehind gap ps =
      gap ++ ps.flatMap Piece.text := by
  induction ps generalizing start gap with
  | nil => simp [ofPieces, gapBehind]
  | cons p ps ih =>
      rw [ofPieces, gapBehind]
      cases p.kind with
      | token kind => simp [ih, spelled]
      | _ => simp [ih]

/-- A token stands behind what the tokens in front of it and its gap spell. -/
theorem Token.start_ofPieces {start : Nat} {gap : List Char} {ps : List Piece} {before : List Token}
    {t : Token} {after : List Token} (split : ofPieces start gap ps = before ++ t :: after) :
    t.start + width gap = start + width (before.flatMap spelled) + width t.gap := by
  induction ps generalizing start gap before with
  | nil => simp [ofPieces] at split
  | cons p ps ih =>
      rw [ofPieces] at split
      split at split
      · cases before with
        | nil =>
            obtain ⟨rfl, -⟩ := List.cons.inj split
            simp
        | cons u before =>
            obtain ⟨rfl, rest⟩ := List.cons.inj split
            have := ih rest
            simp only [List.flatMap_cons, spelled, width_append, width_nil] at this ⊢
            omega
      · have := ih split
        simp only [width_append] at this
        omega

/-- Tokens in a row spell what the text holds from the first to the last, without the gap
of the first. -/
theorem exists_row {text : List Char} {first last : Token} {ts us : List Token}
    (part : first :: ts <:+: (Lexing.ofText text).tokens) (ends : first :: ts = us ++ [last]) :
    ∃ before after, text = before ++ (first.text ++ ts.flatMap Token.spelled ++ after) ∧
      first.start = width before ∧
      last.stop = width before + width (first.text ++ ts.flatMap Token.spelled) := by
  obtain ⟨front, behind, tokens⟩ := part
  have pieces : Token.ofPieces 0 [] (Piece.split text) = front ++ first :: (ts ++ behind) := by
    rw [show Token.ofPieces 0 [] (Piece.split text) = _ from tokens.symm]
    simp
  have atLast : Token.ofPieces 0 [] (Piece.split text) = (front ++ us) ++ last :: behind := by
    rw [pieces, ← List.cons_append, ends]
    simp
  have start : first.start = width (front.flatMap Token.spelled ++ first.gap) := by
    simpa using Token.start_ofPieces pieces
  have stop : last.stop = width ((front ++ (us ++ [last])).flatMap Token.spelled) := by
    have begins : last.start = width ((front ++ us).flatMap Token.spelled) + width last.gap := by
      simpa using Token.start_ofPieces atLast
    simp only [Token.stop, begins, List.flatMap_append, List.flatMap_cons, List.flatMap_nil,
      Token.spelled, width_append, width_nil]
    omega
  refine ⟨front.flatMap Token.spelled ++ first.gap,
    behind.flatMap Token.spelled ++ Token.gapBehind [] (Piece.split text), ?_, start, ?_⟩
  · have spell := Token.spelled_ofPieces 0 [] (Piece.split text)
    rw [Piece.flatten_split, List.nil_append, pieces] at spell
    refine spell.symm.trans ?_
    simp [Token.spelled]
  · rw [stop, ← ends]
    simp [Token.spelled, Nat.add_assoc]

/-- Three tokens in a row spell what the text holds at their place, without the gap of
the first. -/
theorem slice_tokens {text : List Char} {s c n : Token}
    (part : [s, c, n] <:+: (Lexing.ofText text).tokens) :
    slice text ⟨s.start, n.stop⟩ = s.text ++ (c.gap ++ c.text ++ n.gap ++ n.text) := by
  obtain ⟨before, after, spelled, start, stop⟩ :=
    exists_row part (show [s, c, n] = [s, c] ++ [n] from rfl)
  rw [spelled, slice_append before _ after start stop]
  simp [Token.spelled]

/-- An identifier holds no colon. -/
theorem Token.Lexed.ne_colon {t : Token} (lexed : t.Lexed) (kind : t.kind = .identifier) :
    ∀ ch ∈ t.text, (ch != ':') = true := by
  obtain ⟨first, rest, spelled, start, continued⟩ := lexed.identifier kind
  intro ch member
  rw [spelled] at member
  rw [bne_iff_ne]
  rintro rfl
  rcases List.mem_cons.1 member with rfl | member
  · exact absurd start (by decide)
  · exact absurd (continued _ member) (by decide)

/-- The name that three tokens in a row give to an attribute is what the text holds behind the
first colon of their place. -/
theorem Head.spacedName_eq {text : List Char} {s c n : Token}
    (row : [s, c, n] <:+: (Lexing.ofText text).tokens) (kind : s.kind = .identifier) :
    spacedName c n = String.ofList (colonTail text ⟨s.start, n.stop⟩) := by
  have lexed := (Lexing.placed_tokens text).lexed s (row.subset List.mem_cons_self)
  -- The first colon of the place is the token `c`, as the namespace holds none.
  rw [spacedName, colonTail, slice_tokens row, List.dropWhile_append_of_pos (lexed.ne_colon kind)]

/-- The name of an attribute with a namespace is what the text holds behind the first
colon of its place. -/
theorem name_eq_colonTail {text : List Char} {a : Attribute}
    (spaced : SpacedBy (Lexing.ofText text).tokens a) :
    a.name = String.ofList (colonTail text a.nameSpan) := by
  obtain ⟨s, c, n, row, kind, name, nameSpan⟩ := spaced
  rw [name, nameSpan, Head.spacedName_eq row kind]

/-- The tokens of a text without places and gaps: their kinds and their texts. -/
def lexemes (text : List Char) : List (TokenKind × List Char) :=
  (Lexing.ofText text).tokens.map fun t => (t.kind, t.text)

/-- What a text holds behind the first colon in the place of each attribute name with
a namespace, in reading order. -/
def colonTails (text : List Char) : List (List Char) :=
  ((Tag.allAttributes (Document.ofText text).root.children).filter (·.space.isSome)).map fun a =>
    colonTail text a.nameSpan

theorem spacedNames_eq_colonTails (text : List Char) :
    spacedNames (Tag.allAttributes (Document.ofText text).root.children) =
      (colonTails text).map String.ofList := by
  rw [spacedNames, colonTails, List.map_map]
  apply List.map_congr_left
  intro a member
  obtain ⟨member, spaced⟩ := List.mem_filter.1 member
  have found := spacedBy_of_mem_tagsOf _ 0 (Statement.ofTokens (Lexing.ofText text).tokens) member
    spaced
  rw [Statement.tokens_ofTokens] at found
  exact name_eq_colonTail found

/-- Texts with the same lexemes have the same trees, but for the masked names. -/
theorem stripAll_masked_eq {a b : List Char} (same : lexemes a = lexemes b) :
    Tag.stripAll Attribute.masked (Document.ofText a).root.children =
      Tag.stripAll Attribute.masked (Document.ofText b).root.children := by
  have bare (text : List Char) : (Lexing.ofText text).tokens.map Token.bare =
      (lexemes text).map fun p => ⟨p.1, p.2, [], 0⟩ := by
    rw [lexemes, List.map_map]
    rfl
  -- Both trees are those of the lexemes themselves, as tokens without places.
  have tags (text : List Char) :
      Tag.stripAll Attribute.masked (Document.ofText text).root.children =
        Tag.stripAll Attribute.masked
          (tagsOf 0 0 (Statement.ofTokens ((lexemes text).map fun p => ⟨p.1, p.2, [], 0⟩))).1 := by
    rw [← bare, Statement.ofTokens_bare]
    exact (tagsOf_bare 0 _ 0 _).symm
  rw [tags, tags, same]

/-- **What stands between the tokens of a text has no meaning, except behind the colons
of attribute names.**  Two texts with the same kinds and texts of tokens have the same
tree, places aside, exactly if they hold the same behind the first colon of each
attribute name with a namespace. -/
theorem bare_eq_iff_colonTails {a b : List Char} (same : lexemes a = lexemes b) :
    (Document.ofText a).root.bare = (Document.ofText b).root.bare ↔
      colonTails a = colonTails b := by
  have root (text : List Char) : (Document.ofText text).root.bare =
      ⟨none, "", ⟨0, 0⟩, none, [], [],
        Tag.stripAll Attribute.bare (Document.ofText text).root.children⟩ := by
    rfl
  rw [root, root, Tag.mk.injEq]
  simp only [true_and]
  rw [Tag.bare_iff (stripAll_masked_eq same), spacedNames_eq_colonTails, spacedNames_eq_colonTails]
  exact List.map_inj_right fun _ _ => String.ofList_injective

/-- Comments and blanks around all tokens leave the tree as it is, where the colon of
the attribute stands close to its name. -/
theorem bare_eq_of_comment :
    lexemes "t a:b=1".toList = lexemes "t  a /* c */ :b = 1".toList ∧
      (Document.ofText "t a:b=1".toList).root.bare =
        (Document.ofText "t  a /* c */ :b = 1".toList).root.bare := by
  have same : lexemes "t a:b=1".toList = lexemes "t  a /* c */ :b = 1".toList := by cbv
  exact ⟨same, (bare_eq_iff_colonTails same).2 (by cbv)⟩

/-- A blank behind the colon becomes a part of the name. -/
theorem bare_ne_of_blank :
    lexemes "t a:b=1".toList = lexemes "t a: b=1".toList ∧
      (Document.ofText "t a:b=1".toList).root.bare ≠
        (Document.ofText "t a: b=1".toList).root.bare := by
  refine ⟨by cbv, fun equal => ?_⟩
  have close : (Tag.allAttributes (Document.ofText "t a:b=1".toList).root.bare.children).map
      Attribute.name = ["b"] := by cbv
  have apart : (Tag.allAttributes (Document.ofText "t a: b=1".toList).root.bare.children).map
      Attribute.name = [" b"] := by cbv
  rw [equal, apart] at close
  simp at close

end PackageRecipe.Sdl
