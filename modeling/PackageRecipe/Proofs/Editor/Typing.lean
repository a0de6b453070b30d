import Mathlib
import PackageRecipe.Proofs.Editor.Nesting
import PackageRecipe.Proofs.Sdl.Escaping
import PackageRecipe.Proofs.Sdl.Lineage
import PackageRecipe.Proofs.Sdl.Literal
import PackageRecipe.Proofs.Sdl.Spacing
import PackageRecipe.Proofs.Sdl.Truncating

/-!
# The cursor in a string

While a string is typed, the cursor is understood from the open string and the tokens in front
of it.  This file shows that what is found there is what the tag has that the string belongs to
in the whole text: its name, the attribute whose value the string is, and the values in front.

## Main Definitions

* `Attribute.Close` — a name with a namespace that is written without blanks or comments
* `typedPart` — what a string stands for that is cut off, by `Escape.Reading` behind a double quote
* `Typing` — the cursor tells where in a tag a string is typed

## Design Notes

The cursor looks at the last two tokens and counts from the left, the parser takes item by item.
`Head.Around` is what both have in common: the name, whole items, and the words that lead to the
string.  The cursor side is `values_of_around` with one lemma for each of the two forms of a
value (`ofContext_positional`, `ofContext_assigned`), the tag side is in `Head.Around` itself.
That the tag in question is the one whose statement is open at the cursor follows from its
string, as no two tags share one.
-/

namespace PackageRecipe.Sdl

open PackageRecipe.Text

/-- Of the given tokens, those of the name of an attribute follow each other without anything
in between. -/
def Attribute.Close (tokens : List Token) (a : Attribute) : Prop :=
  ∀ t ∈ tokens, a.nameSpan.start < t.start → t.stop ≤ a.nameSpan.stop → t.gap = []

instance (tokens : List Token) (a : Attribute) : Decidable (a.Close tokens) :=
  inferInstanceAs (Decidable (∀ t ∈ tokens, _ → _ → _))

/-- What the beginning of a string literal stands for: behind a double quote it is decoded, and
behind any other it stands for itself. -/
def typedPart : List Char → List Char
  | [] => []
  | '"' :: body => Escape.decode body
  | _ :: body => body

/-- **What is typed behind a double quote is read escape by escape**, also if it is cut off inside
of one. -/
theorem typedPart_quoted_iff {body text : List Char} :
    typedPart ('"' :: body) = text ↔ Escape.Reading body text :=
  Escape.reading_iff.symm

end PackageRecipe.Sdl

namespace PackageRecipe.Editor.Cursor

open PackageRecipe.Sdl PackageRecipe.Text

/-- The cursor at the offset `o` of a text stands in the string `v` of a tag, where a value of
the attribute, or a positional one if there is none, is typed. -/
structure Typing (text : List Char) (o : Nat) (t : Tag) (attributeName : Option String)
    (v : Value) (cursor : Cursor) : Prop where
  kind : cursor.kind = .value
  path : cursor.path.getLast? = some t.step
  attributeName : cursor.attributeName = attributeName
  values : cursor.values = t.values.filter (·.span.stop ≤ v.span.start)
  typed : cursor.typed = String.ofList (typedPart (slice text ⟨v.span.start, o⟩))

/-! ## The statement in front of the cursor -/

/-- The statement of a context is made of the last of its tokens. -/
theorem statement_foldl_add (ts : List Token) (c : Context) :
    (ts.foldl Context.add c).statement <:+ c.statement ++ ts := by
  induction ts generalizing c with
  | nil => simp
  | cons t ts ih =>
      have step : (c.add t).statement <:+ c.statement ++ [t] := by
        unfold Context.add
        split <;> simp
      obtain ⟨front, spelled⟩ := step
      refine (ih (c.add t)).trans ⟨front, ?_⟩
      rw [← List.append_assoc, spelled, List.append_assoc, List.singleton_append]

/-- What is left of a string is typed. -/
theorem typedText_of_lexed {u : Token} (lexed : u.Lexed) {raw : Bool}
    (kind : u.kind = .string raw false) : typedText u = String.ofList (typedPart u.text) := by
  obtain ⟨c, s, n, begun, text⟩ := lexed
  rw [kind] at begun
  obtain ⟨rfl, -⟩ := begun.eq_string
  cases raw <;> simp [typedText, Token.literal?, kind, Token.body, text, typedPart]

section Names

variable {hd ts tail : List Token} {space : Option String} {name : String}

/-- The cursor knows the name of a tag, if what follows begins as the items do or with a
literal. -/
theorem headLength_of_named (named : Head.Named hd ts space name) (grammatical : Items ts)
    (begins : ∀ t ∈ tail.head?, t ∈ ts.head? ∨ t.IsLiteral) :
    headLength (hd ++ tail) = hd.length ∧ headName (hd ++ tail) = ⟨space.getD "", name⟩ := by
  have plain : ∀ t ∈ tail.head?, t.kind ≠ .colon := fun t member =>
    (begins t member).elim (grammatical.head?_ne_colon t) Token.IsLiteral.ne_colon
  cases named with
  | plain name _ => exact ⟨headLength_plain name plain, headName_plain name plain⟩
  | spaced space colon name =>
      exact ⟨headLength_spaced space colon name tail, headName_spaced space colon name tail⟩
  | @anonymous v ts literal =>
      cases tail with
      | nil => exact ⟨rfl, rfl⟩
      | cons t tail =>
          have noName : t.isName = false := by
            rcases begins t rfl with first | literal'
            · obtain rfl : v = t := Option.some.inj first
              exact literal.isName_eq_false
            · exact literal'.isName_eq_false
          exact ⟨headLength_anonymous noName tail, headName_anonymous noName tail⟩

/-- No name ends with a colon or an equals sign. -/
theorem last_of_named (named : Head.Named hd ts space name) :
    ∀ t ∈ hd.getLast?, t.kind ≠ .equals ∧ t.kind ≠ .colon := by
  have identifier {t : Token} (name : t.isName) : t.kind ≠ .equals ∧ t.kind ≠ .colon := by
    simp [Token.kind_of_isName name]
  cases named with
  | anonymous => simp
  | plain name _ => simpa using identifier name
  | spaced _ _ name => simpa using identifier name

end Names

section Values

variable {pre : List Token} {p : Option Token}

theorem valuesAfter_of_ready (ready : ∀ t ∈ p, t.kind ≠ .equals) (t : Token) (ts : List Token) :
    valuesAfter p (t :: ts) = t.value?.toList ++ valuesAfter (some t) ts := by
  cases p with
  | none => simp [valuesAfter]
  | some q => simp [valuesAfter, ready q rfl]

theorem valuesAfter_of_value?_eq_none {t : Token} (none : t.value? = none) (ts : List Token) :
    valuesAfter p (t :: ts) = valuesAfter (some t) ts := by
  simp [valuesAfter, none]

/-- The cursor passes over attributes. -/
theorem valuesAfter_assigned {n e w : Token} (name : n.isName) (equals : e.kind = .equals)
    (ts : List Token) : valuesAfter p (n :: e :: w :: ts) = valuesAfter (some w) ts := by
  rw [valuesAfter_of_value?_eq_none (Token.value?_eq_none_of_isName name),
    valuesAfter_of_value?_eq_none (Token.value?_eq_none_of_mark (Token.mark?_of_equals equals))]
  simp [valuesAfter, equals]

theorem valuesAfter_spaced {s c n e w : Token} (space : s.isName) (colon : c.kind = .colon)
    (name : n.isName) (equals : e.kind = .equals) (ts : List Token) :
    valuesAfter p (s :: c :: n :: e :: w :: ts) = valuesAfter (some w) ts := by
  rw [valuesAfter_of_value?_eq_none (Token.value?_eq_none_of_isName space),
    valuesAfter_of_value?_eq_none (Token.value?_eq_none_of_mark (Token.mark?_of_colon colon)),
    valuesAfter_assigned name equals]

/-- **What the cursor takes for the values of items are their values.** -/
theorem valuesAfter_items (grammatical : Items pre) (ready : ∀ t ∈ p, t.kind ≠ .equals)
    (tail : List Token) :
    ∃ q, (∀ t ∈ q, t.kind ≠ .equals) ∧ valuesAfter p (pre ++ tail) =
      (Head.items pre).filterMap Head.Item.value? ++ valuesAfter q tail := by
  have behind {w : Token} (literal : w.IsLiteral) : ∀ t ∈ some w, t.kind ≠ .equals := by
    simpa using literal.ne_equals
  induction grammatical generalizing p with
  | nil => exact ⟨p, ready, by simp [Head.items_nil]⟩
  | @literal w ts literal _ ih =>
      obtain ⟨q, ready', same⟩ := ih (behind literal)
      refine ⟨q, ready', ?_⟩
      rw [List.cons_append, valuesAfter_of_ready ready, same, Head.items_literal literal,
        List.filterMap_cons]
      cases value : w.value? <;> simp [Head.Item.value?, value]
  | assigned name equals literal _ ih =>
      obtain ⟨q, ready', same⟩ := ih (behind literal)
      obtain ⟨value, literal⟩ := Token.isLiteral_iff.1 literal
      refine ⟨q, ready', ?_⟩
      rw [List.cons_append, List.cons_append, List.cons_append, valuesAfter_assigned name equals,
        same, Head.items_assigned name equals literal]
      rfl
  | spaced space colon name equals literal _ ih =>
      obtain ⟨q, ready', same⟩ := ih (behind literal)
      obtain ⟨value, literal⟩ := Token.isLiteral_iff.1 literal
      refine ⟨q, ready', ?_⟩
      rw [List.cons_append, List.cons_append, List.cons_append, List.cons_append,
        List.cons_append, valuesAfter_spaced space colon name equals, same,
        Head.items_spaced space colon name equals literal]
      rfl

end Values

/-! ## What the cursor says -/

section Context

variable {o : Nat} {tail : List Char} {blocks : List QualifiedName} {st : List Token} {e u : Token}

/-- The cursor in a string behind an equals sign. -/
theorem ofContext_assigned (equals : e.kind = .equals) (isOpen : isOpenString u)
    (more : headLength (st ++ [e, u]) ≠ (st ++ [e, u]).length) :
    ofContext o tail ⟨blocks, st ++ [e, u]⟩ =
      { kind := .value, path := blocks ++ [headName (st ++ [e, u])],
        attributeName := attributeBefore? st.reverse, typed := typedText u,
        values := positionalValues (st ++ [e, u]) } := by
  have reversed : (st ++ [e, u]).reverse = u :: e :: st.reverse := by simp
  have noMark : u.kind ≠ .equals := by
    intro kind
    simp [isOpenString, kind] at isOpen
  simp only [ofContext, reversed, if_neg fun whole => more (And.left whole), if_neg noMark]
  simp [equals, isOpen]

/-- The cursor in a string that is no value of an attribute. -/
theorem ofContext_positional (ready : ∀ t ∈ st.getLast?, t.kind ≠ .equals) (isOpen : isOpenString u)
    (more : headLength (st ++ [u]) ≠ (st ++ [u]).length) :
    ofContext o tail ⟨blocks, st ++ [u]⟩ =
      { kind := .value, path := blocks ++ [headName (st ++ [u])], typed := typedText u,
        values := (positionalValues (st ++ [u])).filter (·.span ≠ u.span) } := by
  have reversed : (st ++ [u]).reverse = u :: st.reverse := by simp
  have noMark : u.kind ≠ .equals := by
    intro kind
    simp [isOpenString, kind] at isOpen
  have ahead : ¬ (st.reverse.head?.any (·.kind = .equals) = true ∧
      (isOpenString u = true ∨ u.stop = o)) := by
    rintro ⟨found, -⟩
    obtain ⟨t, last, kind⟩ := (Option.any_eq_true _ _).1 found
    rw [List.head?_reverse] at last
    exact ready t last (of_decide_eq_true kind)
  simp only [ofContext, reversed, if_neg fun whole => more (And.left whole), if_neg noMark,
    if_neg ahead, if_pos isOpen]

end Context

section Around

variable {l u : Token} {v : Value} {h : Head} {hd pre lead more : List Token} {i : Head.Item}

/-- The statement up to a literal has the name of the tag, and the values in front of the
literal. -/
theorem values_of_around (around : Head.Around l v h hd pre lead more i) (literal : u.IsLiteral) :
    headLength (hd ++ (pre ++ (lead ++ [u]))) = hd.length ∧
      headName (hd ++ (pre ++ (lead ++ [u]))) = ⟨h.space.getD "", h.name⟩ ∧
      ∃ q, (∀ t ∈ q, t.kind ≠ .equals) ∧ positionalValues (hd ++ (pre ++ (lead ++ [u]))) =
        (Head.items pre).filterMap Head.Item.value? ++ valuesAfter q (lead ++ [u]) := by
  have begins : ∀ t ∈ (pre ++ (lead ++ [u])).head?,
      t ∈ (pre ++ lead ++ l :: more).head? ∨ t.IsLiteral := by
    intro t first
    rw [← List.append_assoc] at first
    cases front : pre ++ lead with
    | nil => simp_all
    | cons w ws => simp_all
  obtain ⟨length, name⟩ := headLength_of_named around.named around.grammatical begins
  have ready : ∀ t ∈ hd.getLast?, t.kind ≠ .equals := fun t last =>
    (last_of_named around.named t last).1
  obtain ⟨q, ready', same⟩ := valuesAfter_items around.before ready (lead ++ [u])
  refine ⟨length, name, q, ready', ?_⟩
  rw [positionalValues, length, List.take_left, List.drop_left, same]

/-- Neither a colon nor an equals sign stands in front of an item. -/
theorem last_of_around (around : Head.Around l v h hd pre lead more i) :
    ∀ t ∈ (hd ++ pre).getLast?, t.kind ≠ .equals ∧ t.kind ≠ .colon := by
  intro t last
  rw [List.getLast?_append] at last
  cases ends : pre.getLast? with
  | none =>
      rw [ends, Option.none_or] at last
      exact last_of_named around.named t last
  | some w =>
      rw [ends, Option.some_or] at last
      obtain rfl : w = t := Option.some.inj last
      have literal := around.before.isLiteral_of_getLast? w ends
      exact ⟨literal.ne_equals, literal.ne_colon⟩

theorem attributeBefore?_plain {n : Token} (name : n.isName) {st : List Token}
    (plain : ∀ t ∈ st.getLast?, t.kind ≠ .colon) :
    attributeBefore? (st ++ [n]).reverse = some n.word := by
  rw [List.getLast?_eq_head?_reverse] at plain
  rw [List.reverse_append, List.reverse_singleton, List.singleton_append]
  cases reversed : st.reverse with
  | nil => simp [attributeBefore?, Token.kind_of_isName name]
  | cons c rest =>
      have noColon : c.kind ≠ .colon := plain c (by rw [reversed, List.head?_cons]; rfl)
      cases rest <;> simp [attributeBefore?, Token.kind_of_isName name, noColon]

theorem attributeBefore?_spaced {s c n : Token} (space : s.isName) (colon : c.kind = .colon)
    (name : n.isName) (st : List Token) :
    attributeBefore? (st ++ [s, c, n]).reverse = some (s.word ++ ":" ++ n.word) := by
  simp [attributeBefore?, Token.kind_of_isName name, Token.kind_of_isName space, colon]

/-- A name with a namespace is written out, if nothing stands around the colon. -/
theorem qualify_of_close {s c n : Token} (lexed : s.Lexed) (colon : c.text = [':'])
    (gaps : c.gap = [] ∧ n.gap = []) :
    qualify (some s.word) (Head.spacedName c n) = s.word ++ ":" ++ n.word := by
  have written : Head.spacedName c n = n.word := by
    simp [Head.spacedName, colon, gaps, Token.word]
  simp [qualify, lexed.word_ne, written]

/-- The words in front of the value of an attribute end with its name and an equals sign, and
the cursor finds no positional value among them. -/
theorem lead_of_attribute (around : Head.Around l v h hd pre lead more i) {a : Attribute}
    (adds : i.attribute? = some a) (close : a.space.isSome → a.Close lead) :
    a.value = v ∧ ∃ st e, (∀ u, hd ++ (pre ++ (lead ++ [u])) = st ++ [e, u]) ∧
      e.kind = .equals ∧ attributeBefore? st.reverse = some a.qualifiedName ∧
      ∀ q u, valuesAfter q (lead ++ [u]) = [] := by
  have leads := around.leads
  have placed : Placed lead := around.placed.left.right.right
  cases leads with
  | positional => simp [Head.Item.attribute?] at adds
  | @assigned n e name equals =>
      cases adds
      refine ⟨rfl, hd ++ pre ++ [n], e, by simp, equals, ?_, ?_⟩
      · exact attributeBefore?_plain name fun t last => (last_of_around around t last).2
      · intro q u
        exact valuesAfter_assigned name equals []
  | @spaced s c n e space colon name equals =>
      cases adds
      refine ⟨rfl, hd ++ pre ++ [s, c, n], e, by simp, equals, ?_, ?_⟩
      · rw [attributeBefore?_spaced space colon name]
        have lexed := placed.lexed
        have gaps : c.gap = [] ∧ n.gap = [] := by
          have apart := placed.head_stop_le_start (u := c) (by simp)
          have apart' := placed.tail.head_stop_le_start (u := n) (by simp)
          have first := placed.start_lt_stop (t := s) (by simp)
          have second := placed.start_lt_stop (t := c) (by simp)
          have third := placed.start_lt_stop (t := n) (by simp)
          exact ⟨close rfl c (by simp) (by dsimp only; omega) (by dsimp only; omega),
            close rfl n (by simp) (by dsimp only; omega) (Nat.le_refl _)⟩
        exact congrArg some (qualify_of_close (lexed s (by simp))
          ((lexed c (by simp)).text_eq (Token.mark?_of_colon colon)) gaps).symm
      · intro q u
        exact valuesAfter_spaced space colon name equals []

/-- An open string is longer than the name of its tag. -/
theorem length_ne_of_around (length : headLength (hd ++ (pre ++ (lead ++ [u]))) = hd.length) :
    headLength (hd ++ (pre ++ (lead ++ [u]))) ≠ (hd ++ (pre ++ (lead ++ [u]))).length := by
  rw [length]
  simp only [List.length_append, List.length_singleton]
  omega

variable {text : List Char} {o start stop : Nat} {tail : List Char} {blocks : List QualifiedName}
  {children : List Tag} {raw : Bool}

/-- The cursor in a positional string. -/
theorem typing_positional (around : Head.Around l v h hd pre lead more i) (lexed : u.Lexed)
    (kind : u.kind = .string raw false) (begins : u.start = l.start)
    (part : slice text ⟨l.start, o⟩ = u.text) {w : Value} (adds : i.value? = some w) :
    Typing text o (h.toTag start stop children) none w
      (ofContext o tail ⟨blocks, hd ++ (pre ++ (lead ++ [u]))⟩) := by
  have isOpen : isOpenString u := by simp [isOpenString, kind]
  have literal := Token.isLiteral_of_string kind
  obtain ⟨value, literal'⟩ := Token.isLiteral_iff.1 literal
  have span := around.leads.span_of_value? adds
  obtain ⟨length, name, q, ready, values⟩ := values_of_around around literal
  have longer := length_ne_of_around length
  have leads := around.leads
  cases leads with
  | assigned | spaced => simp [Head.Item.value?] at adds
  | positional =>
      have shape : hd ++ (pre ++ ([] ++ [u])) = (hd ++ pre) ++ [u] := by simp
      rw [shape] at name values longer ⊢
      rw [ofContext_positional (fun t last => (last_of_around around t last).1) isOpen longer]
      refine ⟨rfl, ?_, rfl, ?_, ?_⟩
      · rw [List.getLast?_concat, name]
        rfl
      · have nonempty := lexed.start_lt_stop
        have early : ∀ x ∈ (Head.items pre).filterMap Head.Item.value?,
            decide (x.span ≠ u.span) := by
          intro x member
          apply decide_eq_true
          intro same
          obtain ⟨j, inside, carried⟩ := List.mem_filterMap.1 member
          have apart := around.stop_le_start inside (Head.Item.carried?_of_value? carried)
          simp only [same, Token.span] at apart
          omega
        change (positionalValues (hd ++ pre ++ [u])).filter (·.span ≠ u.span) = _
        rw [values, List.filter_append, List.filter_eq_self.2 early, List.nil_append,
          valuesAfter_of_ready ready, literal', span]
        -- The cursor leaves out the string itself.
        refine Eq.trans ?_ around.filter_values.symm
        simp [valuesAfter, Token.span_of_value? literal']
      · rw [span]
        change typedText u = _
        rw [typedText_of_lexed lexed kind, ← part]
        rfl

/-- The cursor in a string that is the value of an attribute. -/
theorem typing_assigned (around : Head.Around l v h hd pre lead more i) (lexed : u.Lexed)
    (kind : u.kind = .string raw false) (part : slice text ⟨l.start, o⟩ = u.text) {a : Attribute}
    (adds : i.attribute? = some a) (close : a.space.isSome → a.Close lead) :
    Typing text o (h.toTag start stop children) (some a.qualifiedName) a.value
      (ofContext o tail ⟨blocks, hd ++ (pre ++ (lead ++ [u]))⟩) := by
  have isOpen : isOpenString u := by simp [isOpenString, kind]
  have literal := Token.isLiteral_of_string kind
  obtain ⟨rfl, st, e, shape, equals, written, none⟩ := lead_of_attribute around adds close
  have span := Token.span_of_value? around.value
  obtain ⟨length, name, q, ready, values⟩ := values_of_around around literal
  have longer := length_ne_of_around length
  rw [shape] at name values longer ⊢
  rw [ofContext_assigned equals isOpen longer]
  refine ⟨rfl, ?_, written, ?_, ?_⟩
  · rw [List.getLast?_concat, name]
    rfl
  · change positionalValues (st ++ [e, u]) = _
    rw [values, none, List.append_nil, span]
    exact around.filter_values.symm
  · rw [span]
    change typedText u = _
    rw [typedText_of_lexed lexed kind, ← part]
    rfl

end Around

/-! ## The cursor in a document -/

/-- Outside of comments the cursor goes by the tokens in front of it. -/
theorem ofOffset_of_tokens {before after : List Char}
    (noComment : (Lexing.ofText before).endsInComment = false) {c : Context}
    (context : Context.ofTokens (Lexing.ofText before).tokens = c) :
    ofOffset (before ++ after) (width before) = ofContext (width before)
      (dropBytes (((Lexing.ofText before).tokens.getLast?.map Token.stop).getD 0) before) c := by
  simp [ofOffset, takeBytes_width_append, noComment, context]

/-- The tags of the innermost block around a place are tags of the document. -/
theorem mem_preorder_of_around {text : List Char} {o : Nat} {t : Tag}
    (member : t ∈ ((tagsAround text o).getLast?.getD (Document.ofText text).root).children) :
    t ∈ Tag.preorder (Document.ofText text).root.children := by
  cases around : (tagsAround text o).getLast? with
  | none =>
      rw [around, Option.getD_none] at member
      exact Tag.mem_preorder_of_mem member
  | some outer =>
      rw [around, Option.getD_some] at member
      have inside := (List.mem_filter.1 (List.mem_of_getLast? around)).1
      rw [Tag.descendants_eq] at inside
      exact Tag.mem_preorder_of_child inside member

/-- **The statement at a place within a token.**  In a document without errors the tokens in
front of such a token, as far as they belong to its statement, are those that the cursor keeps,
and with the token and those behind it they are the words of a tag. -/
theorem exists_statement {text : List Char} {o : Nat} {done todo : List Token} {l : Token}
    (errorFree : ErrorFree (Document.ofText text).problems)
    (whole : (Lexing.ofText text).tokens = done ++ l :: todo) (straddles : l.span.Straddles o) :
    ∃ st more h ps start stop children,
      done.foldl Context.add ⟨[], []⟩ = ⟨(tagsAround text o).map Tag.step, st⟩ ∧
      Placed (st ++ l :: more) ∧ Phrase (st ++ l :: more) ∧
      Head.read? (st ++ l :: more) = some (h, ps) ∧
      h.toTag start stop children ∈ Tag.preorder (Document.ofText text).root.children := by
  have placed := Lexing.placed_tokens text
  rw [whole] at placed
  have early : ∀ t ∈ done, t.stop ≤ o := by
    intro t inside
    exact (placed.stop_le_start inside List.mem_cons_self).trans (Nat.le_of_lt straddles.1)
  have late : ∀ t ∈ l :: todo, o < t.stop := by
    refine List.forall_mem_cons.2 ⟨straddles.2, fun t inside => ?_⟩
    exact (pending_tail placed.right straddles.2 t inside).1
  obtain ⟨st, run, standing⟩ := standing_of_errorFree errorFree whole early late
  have inBlock := @mem_preorder_of_around text o
  generalize ((tagsAround text o).getLast?.getD (Document.ofText text).root).children = tags
    at standing inBlock
  cases standing with
  | between behind => exact absurd straddles.1 (Nat.not_lt.2 (behind l rfl))
  | @inside earlier first words st more h ps stop later children placed phrase read start _ split
      _ cut =>
      obtain ⟨more, rfl⟩ := List.head?_eq_some_iff.1 (cut l rfl straddles.1)
      rw [split] at placed phrase read
      exact ⟨st, more, h, ps, first.start, stop, children, run, placed, phrase, read,
        inBlock (by simp)⟩

/-- The string of a document without errors in which the cursor stands belongs to a tag, and the
cursor says what is typed there. -/
theorem exists_typing_of_string {before after : List Char}
    (errorFree : ErrorFree (Document.ofText (before ++ after)).problems) {l : Token}
    (member : l ∈ (Lexing.ofText (before ++ after)).tokens) {raw closed : Bool}
    (kind : l.kind = .string raw closed) (straddles : l.span.Straddles (width before)) :
    let text := before ++ after
    let o := width before
    ∃ t ∈ Tag.preorder (Document.ofText text).root.children, l.span ∈ t.valueSpans ∧
      (∀ v ∈ t.values, v.span = l.span → Typing text o t none v (ofOffset text o)) ∧
      ∀ a ∈ t.attributes, (a.space.isSome → a.Close (Lexing.ofText text).tokens) →
        a.value.span = l.span →
          Typing text o t (some a.qualifiedName) a.value (ofOffset text o) := by
  intro text o
  obtain ⟨v, value⟩ := Token.isLiteral_iff.1 (Token.isLiteral_of_string kind)
  obtain ⟨done, todo, front, u, whole, part, isOpen, begins, spelled, place, noComment⟩ :=
    Lexing.tokens_within_string member kind straddles
  obtain ⟨st, more, h, ps, start, stop, children, run, placed, phrase, read, tag⟩ :=
    exists_statement errorFree whole straddles
  obtain ⟨hd, pre, lead, i, rfl, around⟩ := Head.exists_around phrase read placed value
  have lexed : u.Lexed := (Lexing.placed_tokens before).lexed u (by simp [part])
  have typed : slice text ⟨l.start, o⟩ = u.text := by
    simp only [text, o]
    rw [spelled, List.append_assoc]
    exact slice_append front u.text after place.symm (by simp)
  have context : Context.ofTokens (Lexing.ofText before).tokens =
      ⟨(tagsAround text o).map Tag.step, hd ++ (pre ++ (lead ++ [u]))⟩ := by
    have word : u.endsStatement = false := by simp [Token.endsStatement, isOpen]
    rw [part, Context.ofTokens, List.foldl_append, run, List.foldl_cons, List.foldl_nil,
      Context.add_word word]
    simp [text, o]
  have inText : ∀ t ∈ lead, t ∈ (Lexing.ofText text).tokens := by
    intro t inside
    have suffix := statement_foldl_add done ⟨[], []⟩
    rw [run] at suffix
    rw [whole]
    exact List.mem_append_left _ (suffix.subset (by simp [inside]))
  refine ⟨h.toTag start stop children, tag, around.mem_valueSpans start stop children, ?_, ?_⟩
  · intro w held same
    rw [ofOffset_of_tokens noComment context]
    exact typing_positional around lexed isOpen begins typed (around.value_of_mem held same)
  · intro a held close same
    rw [ofOffset_of_tokens noComment context]
    refine typing_assigned around lexed isOpen typed (around.attribute_of_mem held same) ?_
    intro spaced t inside
    exact close spaced t (inText t inside)

/-- **Inside a string the cursor says what the parser reads.**  In a document without errors, a
cursor behind the opening quote of a string and not behind its closing one is in a value of the
tag that the string belongs to: a positional one, or the value of an attribute, whose name the
cursor knows if nothing stands around the colon in it.  The cursor has the positional values in
front of the string, and the text of the string so far. -/
theorem typing_ofOffset (before after : List Char)
    (errorFree : ErrorFree (Document.ofText (before ++ after)).problems) :
    let text := before ++ after
    let o := width before
    ∀ t ∈ (Document.ofText text).root.descendants,
      (∀ v ∈ t.values, v.kind = .string → v.span.Straddles o →
        Typing text o t none v (ofOffset text o)) ∧
      ∀ a ∈ t.attributes, (a.space.isSome → a.Close (Lexing.ofText text).tokens) →
        a.value.kind = .string → a.value.span.Straddles o →
          Typing text o t (some a.qualifiedName) a.value (ofOffset text o) := by
  intro text o t member
  rw [Tag.descendants_eq] at member
  -- The tag that holds a string is the one whose statement the cursor stands in.
  have typing {v : Value} (held : v ∈ t.values ∨ ∃ a ∈ t.attributes, a.value = v)
      (kind : v.kind = .string) (straddles : v.span.Straddles o) :
      (∀ w ∈ t.values, w.span = v.span → Typing text o t none w (ofOffset text o)) ∧
      ∀ a ∈ t.attributes, (a.space.isSome → a.Close (Lexing.ofText text).tokens) →
        a.value.span = v.span →
          Typing text o t (some a.qualifiedName) a.value (ofOffset text o) := by
    obtain ⟨l, inside, value⟩ := Document.exists_token_of_mem member held
    obtain ⟨raw, closed, string⟩ := Token.kind_of_string value kind
    have span := Token.span_of_value? value
    obtain ⟨t', member', part', typing⟩ :=
      exists_typing_of_string errorFree inside string (span ▸ straddles)
    have part : l.span ∈ t.valueSpans := by
      rw [← span]
      rcases held with held | ⟨a, held, rfl⟩
      · exact List.mem_append_left _ (List.mem_map_of_mem held)
      · exact List.mem_append_right _ (List.mem_map.2 ⟨a, held, rfl⟩)
    obtain rfl := Document.eq_of_shared_part member member' (List.mem_append_right _ part)
      (List.mem_append_right _ part') ((Lexing.placed_tokens text).start_lt_stop inside)
    rwa [span]
  constructor
  · intro v held kind straddles
    exact (typing (.inl held) kind straddles).1 v held rfl
  · intro a held close kind straddles
    exact (typing (.inr ⟨a, held, rfl⟩) kind straddles).2 a held close rfl

/-- The cursor behind a backslash in the value of an attribute with a namespace. -/
theorem typing_ofOffset_escape :
    (Document.ofText ("b \"p\" s:d=\"v\\".toList ++ "\"w\"".toList)).problems = [] ∧
      ∃ t ∈ (Document.ofText ("b \"p\" s:d=\"v\\".toList ++ "\"w\"".toList)).root.descendants,
        ∃ a ∈ t.attributes,
          a.Close (Lexing.ofText ("b \"p\" s:d=\"v\\".toList ++ "\"w\"".toList)).tokens ∧
          a.value.kind = .string ∧ a.value.span.Straddles (width "b \"p\" s:d=\"v\\".toList) ∧
          Typing ("b \"p\" s:d=\"v\\".toList ++ "\"w\"".toList)
            (width "b \"p\" s:d=\"v\\".toList) t (some a.qualifiedName) a.value
            (ofOffset ("b \"p\" s:d=\"v\\".toList ++ "\"w\"".toList)
              (width "b \"p\" s:d=\"v\\".toList)) := by
  have clean : (Document.ofText ("b \"p\" s:d=\"v\\".toList ++ "\"w\"".toList)).problems = [] := by
    cbv
  obtain ⟨a, same⟩ : ∃ a : Attribute, a = ⟨some "s", "d", ⟨6, 9⟩, ⟨.string, "v\"w", ⟨10, 16⟩⟩⟩ :=
    ⟨_, rfl⟩
  have held : (Document.ofText ("b \"p\" s:d=\"v\\".toList ++ "\"w\"".toList)).root.descendants.map
      Tag.attributes = [[a]] := by
    rw [same]
    cbv
  have close : a.Close (Lexing.ofText ("b \"p\" s:d=\"v\\".toList ++ "\"w\"".toList)).tokens := by
    rw [same]
    apply of_decide_eq_true
    cbv
  have straddles : a.value.span.Straddles (width "b \"p\" s:d=\"v\\".toList) := by
    rw [same]
    exact ⟨by decide, by decide⟩
  have kind : a.value.kind = .string := by rw [same]
  have member := List.mem_singleton_self [a]
  rw [← held] at member
  obtain ⟨t, inside, attributes⟩ := List.mem_map.1 member
  have found : a ∈ t.attributes := attributes ▸ List.mem_singleton_self a
  exact ⟨clean, t, inside, a, found, close, kind, straddles,
    (typing_ofOffset _ _ (clean ▸ errorFree_nil) t inside).2 a found (fun _ => close) kind
      straddles⟩

end PackageRecipe.Editor.Cursor
