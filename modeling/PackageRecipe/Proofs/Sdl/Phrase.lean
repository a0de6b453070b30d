import PackageRecipe.Proofs.Sdl.Placement
import PackageRecipe.Sdl.Document

/-!
# The words of a statement

What `Head.read?` accepts without reporting an error, as a grammar: a name or a
literal, followed by literals and attributes.

## Main Definitions

* `Token.IsLiteral` — a token with a value
* `Items` — literals and attributes, in any order
* `Phrase` — the words of a statement in front of its block
* `Item.TakenFrom` — which words a part of a statement is made of
* `ErrorFree` — problems of which none is an error

## Design Notes

Each constructor of `Items` and `Phrase` has one equation that says what
`Head.items` and `Head.ofWords?` make of it (`items_literal`, `ofWords?_plain`
and so on), and each of the two functions has one lemma that lists its cases
(`takeItem_cases`, `ofWords?_cases`).  Both directions of `phrase_iff`, and all
later statements about the content of a tag, use these and no definition.
-/

namespace PackageRecipe.Sdl

open PackageRecipe.Text

/-! ## Problems that are no errors -/

/-- None of the problems is an error. -/
def ErrorFree (ps : List Problem) : Prop :=
  ∀ p ∈ ps, p.cause.severity ≠ .error

@[simp] theorem errorFree_nil : ErrorFree [] := by simp [ErrorFree]

@[simp] theorem errorFree_cons {p : Problem} {ps : List Problem} :
    ErrorFree (p :: ps) ↔ p.cause.severity ≠ .error ∧ ErrorFree ps := by
  simp [ErrorFree]

@[simp] theorem errorFree_append {ps qs : List Problem} :
    ErrorFree (ps ++ qs) ↔ ErrorFree ps ∧ ErrorFree qs := by
  simp [ErrorFree, or_imp, forall_and]

/-! ## Names and literals -/

/-- A token with a value. -/
def Token.IsLiteral (t : Token) : Prop :=
  t.value?.isSome

namespace Token

variable {t : Token}

theorem isLiteral_iff : t.IsLiteral ↔ ∃ v, t.value? = some v :=
  Option.isSome_iff_exists

/-- A value stands where its token stands. -/
theorem span_of_value? {v : Value} (value : t.value? = some v) : v.span = t.span := by
  obtain ⟨literal, -, rfl⟩ := Option.map_eq_some_iff.1 value
  rfl

theorem value?_eq_none_of_isName (name : t.isName) : t.value? = none := by
  simp only [isName, Bool.and_eq_true, beq_iff_eq, Option.isNone_iff_eq_none] at name
  simp [value?, literal?, name.1, name.2]

theorem IsLiteral.isName_eq_false (literal : t.IsLiteral) : t.isName = false := by
  rw [Bool.eq_false_iff]
  intro name
  simp [IsLiteral, value?_eq_none_of_isName name] at literal

theorem kind_of_isName (name : t.isName) : t.kind = .identifier := by
  simp only [isName, Bool.and_eq_true, beq_iff_eq] at name
  exact name.1

/-- No mark has a value. -/
theorem value?_eq_none_of_mark {a : Char} (marked : t.kind.mark? = some a) : t.value? = none := by
  cases kind : t.kind <;> simp [kind, TokenKind.mark?, value?, literal?] at marked ⊢

theorem isName_eq_false_of_mark {a : Char} (marked : t.kind.mark? = some a) : t.isName = false := by
  rw [Bool.eq_false_iff]
  intro name
  simp [kind_of_isName name, TokenKind.mark?] at marked

/-- Names and literals end no statement. -/
theorem endsStatement_eq_false_of_isName (name : t.isName) : t.endsStatement = false := by
  simp [endsStatement, kind_of_isName name]

theorem IsLiteral.endsStatement_eq_false (literal : t.IsLiteral) : t.endsStatement = false := by
  rw [Bool.eq_false_iff]
  intro ends
  obtain ⟨a, -, marked⟩ := endsStatement_iff.1 ends
  simp [IsLiteral, value?_eq_none_of_mark marked] at literal

end Token

/-! ## The grammar of words -/

/-- Literals and attributes. -/
inductive Items : List Token → Prop where
  | nil : Items []
  | literal {v : Token} {ts : List Token} : v.IsLiteral → Items ts → Items (v :: ts)
  | assigned {n e v : Token} {ts : List Token} :
      n.isName → e.kind = .equals → v.IsLiteral → Items ts → Items (n :: e :: v :: ts)
  | spaced {s c n e v : Token} {ts : List Token} :
      s.isName → c.kind = .colon → n.isName → e.kind = .equals → v.IsLiteral → Items ts →
      Items (s :: c :: n :: e :: v :: ts)

/-- A colon and a name, which make the name in front of them a namespace. -/
def OpensSpace : List Token → Prop
  | c :: n :: _ => c.kind = .colon ∧ n.isName
  | _ => False

/-- The words of a statement: a name with or without a namespace, or a literal,
and the items of the tag. -/
inductive Phrase : List Token → Prop where
  | plain {n : Token} {ts : List Token} :
      n.isName → ¬ OpensSpace ts → Items ts → Phrase (n :: ts)
  | spaced {s c n : Token} {ts : List Token} :
      s.isName → c.kind = .colon → n.isName → Items ts → Phrase (s :: c :: n :: ts)
  | anonymous {v : Token} {ts : List Token} : v.IsLiteral → Items ts → Phrase (v :: ts)

theorem Items.words {ts : List Token} (items : Items ts) : ∀ t ∈ ts, t.endsStatement = false := by
  have mark {t : Token} (kind : t.kind = .equals ∨ t.kind = .colon) : t.endsStatement = false := by
    rcases kind with kind | kind <;> simp [Token.endsStatement, kind]
  induction items with
  | nil => simp
  | literal value _ ih => simpa using ⟨value.endsStatement_eq_false, ih⟩
  | assigned name equals value _ ih =>
      simpa using ⟨Token.endsStatement_eq_false_of_isName name, mark (.inl equals),
        value.endsStatement_eq_false, ih⟩
  | spaced space colon name equals value _ ih =>
      simpa using ⟨Token.endsStatement_eq_false_of_isName space, mark (.inr colon),
        Token.endsStatement_eq_false_of_isName name, mark (.inl equals),
        value.endsStatement_eq_false, ih⟩

theorem Phrase.words {ws : List Token} (phrase : Phrase ws) :
    ∀ w ∈ ws, w.endsStatement = false := by
  cases phrase with
  | plain name _ items =>
      simpa using ⟨Token.endsStatement_eq_false_of_isName name, items.words⟩
  | spaced space colon name items =>
      simpa using ⟨Token.endsStatement_eq_false_of_isName space,
        by simp [Token.endsStatement, colon], Token.endsStatement_eq_false_of_isName name,
        items.words⟩
  | anonymous value items => simpa using ⟨value.endsStatement_eq_false, items.words⟩

theorem Phrase.ne_nil {ws : List Token} (phrase : Phrase ws) : ws ≠ [] := by
  cases phrase <;> simp

/-- No colon stands where an item begins. -/
theorem Items.head?_ne_colon {ts : List Token} (items : Items ts) :
    ∀ t ∈ ts.head?, t.kind ≠ .colon := by
  have noColon {t : Token} (known : t.isName ∨ t.IsLiteral) : t.kind ≠ .colon := by
    intro colon
    rcases known with name | literal
    · simp [Token.kind_of_isName name] at colon
    · simp [Token.IsLiteral, Token.value?, Token.literal?, colon] at literal
  cases items with
  | nil => simp
  | literal literal _ => simpa using noColon (.inr literal)
  | assigned name _ _ _ => simpa using noColon (.inl name)
  | spaced space _ _ _ _ _ => simpa using noColon (.inl space)

/-! ## What is read from words -/

namespace Head

theorem takeValue_of_value? {t : Token} {v : Value} (value : t.value? = some v) (ts : List Token) :
    takeValue (t :: ts) = (some (t, v), ts) := by
  simp [takeValue, value]

/-- What the first item of a statement can be. -/
theorem takeItem_cases (t : Token) (rest : List Token) :
    (∃ e r, rest = e :: r ∧ t.isName ∧ e.kind = .equals ∧
      takeItem t rest = (.attribute none t.word t.span e (takeValue r).1, (takeValue r).2)) ∨
    (∃ c n e r, rest = c :: n :: e :: r ∧ t.isName ∧ c.kind = .colon ∧ n.isName ∧
      e.kind = .equals ∧ takeItem t rest =
        (.attribute (some t.word) (spacedName c n) ⟨t.start, n.stop⟩ e (takeValue r).1,
          (takeValue r).2)) ∨
    takeItem t rest = (.word t, rest) := by
  unfold takeItem
  split
  · rename_i a rest₁
    split
    · rename_i named
      simp only [Bool.and_eq_true, beq_iff_eq] at named
      exact .inl ⟨a, rest₁, rfl, named.1, named.2, rfl⟩
    · split
      · rename_i _ b c rest₃
        split
        · rename_i named
          simp only [Bool.and_eq_true, beq_iff_eq] at named
          exact .inr (.inl ⟨a, b, c, rest₃, rfl, named.1.1.1, named.1.1.2, named.1.2, named.2, rfl⟩)
        · exact .inr (.inr rfl)
      · exact .inr (.inr rfl)
  · exact .inr (.inr rfl)

/-- The tokens behind an item are what it leaves over. -/
theorem takeItem_suffix (t : Token) (rest : List Token) : (takeItem t rest).2 <:+ rest := by
  have value (ts : List Token) : (takeValue ts).2 <:+ ts := by
    unfold takeValue
    split
    · exact List.suffix_rfl
    · split
      · exact List.suffix_cons _ _
      · exact List.suffix_rfl
  rcases takeItem_cases t rest with
    ⟨e, r, rfl, _, _, taken⟩ | ⟨c, n, e, r, rfl, _, _, _, _, taken⟩ | taken
  · rw [taken]
    exact (value r).trans (List.suffix_cons _ _)
  · rw [taken]
    exact (value r).trans ⟨[c, n, e], rfl⟩
  · exact taken ▸ List.suffix_rfl

theorem items_nil : items [] = [] := by
  rw [items]

theorem items_literal {v : Token} (literal : v.IsLiteral) (ts : List Token) :
    items (v :: ts) = .word v :: items ts := by
  have noName := literal.isName_eq_false
  have taken : takeItem v ts = (.word v, ts) := by
    rcases takeItem_cases v ts with ⟨_, _, _, name, _⟩ | ⟨_, _, _, _, _, name, _⟩ | same
    · simp [noName] at name
    · simp [noName] at name
    · exact same
  rw [items, taken]

theorem items_assigned {n e v : Token} (name : n.isName) (equals : e.kind = .equals) {value : Value}
    (literal : v.value? = some value) (ts : List Token) :
    items (n :: e :: v :: ts) =
      .attribute none n.word n.span e (some (v, value)) :: items ts := by
  have taken : takeItem n (e :: v :: ts) =
      (.attribute none n.word n.span e (some (v, value)), ts) := by
    unfold takeItem
    simp [name, equals, takeValue_of_value? literal]
  rw [items, taken]

theorem items_spaced {s c n e v : Token} (space : s.isName) (colon : c.kind = .colon)
    (name : n.isName) (equals : e.kind = .equals) {value : Value}
    (literal : v.value? = some value) (ts : List Token) :
    items (s :: c :: n :: e :: v :: ts) =
      .attribute (some s.word) (spacedName c n) ⟨s.start, n.stop⟩ e (some (v, value)) ::
        items ts := by
  have taken : takeItem s (c :: n :: e :: v :: ts) =
      (.attribute (some s.word) (spacedName c n) ⟨s.start, n.stop⟩ e (some (v, value)), ts) := by
    unfold takeItem
    simp [space, colon, name, equals, takeValue_of_value? literal]
  rw [items, taken]

/-- What a statement can begin with. -/
theorem ofWords?_cases (first : Token) (rest : List Token) :
    (first.isName ∧ ¬ OpensSpace rest ∧ ofWords? (first :: rest) =
      some ({ name := first.word, nameSpan := first.span, stop := first.stop }, rest)) ∨
    (∃ c n r, rest = c :: n :: r ∧ first.isName ∧ c.kind = .colon ∧ n.isName ∧
      ofWords? (first :: rest) =
        some ({ space := some first.word, name := n.word, nameSpan := ⟨first.start, n.stop⟩,
                stop := n.stop }, r)) ∨
    (first.isName = false ∧ ofWords? (first :: rest) = first.value?.map fun v =>
      ({ name := anonymousName, nameSpan := ⟨first.start, first.start⟩, values := [v],
         stop := first.stop }, rest)) := by
  by_cases name : first.isName
  · rcases rest with _ | ⟨c, _ | ⟨n, r⟩⟩
    · exact .inl ⟨name, id, by simp [ofWords?, name]⟩
    · exact .inl ⟨name, id, by simp [ofWords?, name]⟩
    · by_cases opens : c.kind = .colon ∧ n.isName
      · exact .inr (.inl ⟨c, n, r, rfl, name, opens.1, opens.2, by simp [ofWords?, name, opens]⟩)
      · refine .inl ⟨name, opens, ?_⟩
        simp only [ofWords?, name, if_true]
        rw [if_neg (by simpa using opens)]
  · exact .inr (.inr ⟨by simpa using name, by simp [ofWords?, name]⟩)

theorem ofWords?_plain {n : Token} (name : n.isName) {ts : List Token} (plain : ¬ OpensSpace ts) :
    ofWords? (n :: ts) = some ({ name := n.word, nameSpan := n.span, stop := n.stop }, ts) := by
  rcases ofWords?_cases n ts with ⟨_, _, same⟩ | ⟨c, m, r, rfl, _, colon, space, _⟩ | ⟨noName, _⟩
  · exact same
  · exact absurd ⟨colon, space⟩ plain
  · simp [name] at noName

theorem ofWords?_spaced {s c n : Token} (space : s.isName) (colon : c.kind = .colon)
    (name : n.isName) (ts : List Token) :
    ofWords? (s :: c :: n :: ts) =
      some ({ space := some s.word, name := n.word, nameSpan := ⟨s.start, n.stop⟩,
              stop := n.stop }, ts) := by
  simp [ofWords?, space, colon, name]

theorem ofWords?_anonymous {v : Token} {value : Value} (literal : v.value? = some value)
    (ts : List Token) :
    ofWords? (v :: ts) =
      some ({ name := anonymousName, nameSpan := ⟨v.start, v.start⟩, values := [value],
              stop := v.stop }, ts) := by
  have noName : v.isName = false := (Token.isLiteral_iff.2 ⟨_, literal⟩).isName_eq_false
  simp [ofWords?, noName, literal]

/-- A tag begins without attributes, ends with the last token of its name, and leaves over
the tokens behind it. -/
theorem begin_of_ofWords? {ws rest : List Token} {h : Head} (begun : ofWords? ws = some (h, rest)) :
    h.attributes = [] ∧ ∃ used b, ws = used ++ b :: rest ∧ h.stop = b.stop := by
  cases ws with
  | nil => simp [ofWords?] at begun
  | cons first words =>
      rcases ofWords?_cases first words with
        ⟨_, _, same⟩ | ⟨c, n, r, rfl, _, _, _, same⟩ | ⟨_, same⟩
      · rw [same] at begun
        cases begun
        exact ⟨rfl, [], first, rfl, rfl⟩
      · rw [same] at begun
        cases begun
        exact ⟨rfl, [first, c], n, rfl, rfl⟩
      · rw [same] at begun
        obtain ⟨v, -, found⟩ := Option.map_eq_some_iff.1 begun
        cases found
        exact ⟨rfl, [], first, rfl, rfl⟩

/-! ## What items add to a tag -/

/-- The positional value that an item adds. -/
def Item.value? : Item → Option Value
  | .word t => t.value?
  | .attribute .. => none

/-- The attribute that an item adds. -/
def Item.attribute? : Item → Option Attribute
  | .attribute space name nameSpan _ (some (_, v)) => some ⟨space, name, nameSpan, v⟩
  | _ => none

/-- Items add values and attributes in order, and leave the name as it is. -/
theorem addItems_eq (h : Head) (is : List Item) :
    ∃ stop, (h.addItems is).1 =
      { h with values := h.values ++ is.filterMap Item.value?,
               attributes := h.attributes ++ is.filterMap Item.attribute?, stop := stop } := by
  induction is generalizing h with
  | nil => exact ⟨h.stop, by simp [addItems]⟩
  | cons i is ih =>
      rw [addItems]
      obtain ⟨stop, later⟩ := ih (h.addItem i).1
      refine ⟨stop, later.trans ?_⟩
      cases i with
      | word t =>
          cases value : t.value? <;>
            simp [addItem, List.filterMap_cons, Item.value?, Item.attribute?, value]
      | «attribute» space name nameSpan equals value =>
          cases value <;> simp [addItem, List.filterMap_cons, Item.value?, Item.attribute?]

/-- The tag that is read from the words of a statement. -/
theorem eq_of_read? {ws rest : List Token} {h₀ h : Head} {ps : List Problem}
    (begun : ofWords? ws = some (h₀, rest)) (read : read? ws = some (h, ps)) :
    ∃ stop, h =
      { h₀ with values := h₀.values ++ (items rest).filterMap Item.value?,
                attributes := h₀.attributes ++ (items rest).filterMap Item.attribute?,
                stop := stop } := by
  rw [read?, begun] at read
  have added : h₀.addItems (items rest) = (h, ps) := Option.some.inj read
  obtain ⟨stop, same⟩ := addItems_eq h₀ (items rest)
  exact ⟨stop, by rw [← same, added]⟩

/-- The name of a tag stands at the beginning of its words. -/
theorem nameSpan_start {first : Token} {words : List Token} {h : Head} {ps : List Problem}
    (read : read? (first :: words) = some (h, ps)) : h.nameSpan.start = first.start := by
  obtain ⟨⟨h₀, rest⟩, begun, -⟩ := Option.map_eq_some_iff.1 read
  obtain ⟨stop, rfl⟩ := eq_of_read? begun read
  rcases ofWords?_cases first words with ⟨_, _, same⟩ | ⟨_, _, _, _, _, _, _, same⟩ | ⟨_, same⟩
  · obtain ⟨rfl, -⟩ : _ = h₀ ∧ words = rest := by simpa [same] using begun
    rfl
  · rw [same] at begun
    cases begun
    rfl
  · rw [same] at begun
    obtain ⟨v, -, found⟩ := Option.map_eq_some_iff.1 begun
    cases found
    rfl

/-! ## Where a tag ends -/

/-- The tokens that an item is taken from. -/
inductive Item.TakenFrom : List Token → Item → Prop where
  | word (t : Token) : TakenFrom [t] (.word t)
  | assigned {n e : Token} : n.isName → e.kind = .equals →
      TakenFrom [n, e] (.attribute none n.word n.span e none)
  | spaced {s c n e : Token} : s.isName → c.kind = .colon → n.isName → e.kind = .equals →
      TakenFrom [s, c, n, e]
        (.attribute (some s.word) (spacedName c n) ⟨s.start, n.stop⟩ e none)
  | value {us : List Token} {space : Option String} {name : String} {nameSpan : Span}
      {e v : Token} {value : Value} : TakenFrom us (.attribute space name nameSpan e none) →
      v.value? = some value →
      TakenFrom (us ++ [v]) (.attribute space name nameSpan e (some (v, value)))

/-- Each item is taken from tokens in front of those that it leaves over. -/
theorem takenFrom_takeItem (t : Token) (rest : List Token) :
    ∃ used, t :: rest = used ++ (takeItem t rest).2 ∧
      Item.TakenFrom used (takeItem t rest).1 := by
  have value {us r : List Token} {space : Option String} {name : String} {nameSpan : Span}
      {e : Token} (valueless : Item.TakenFrom us (.attribute space name nameSpan e none)) :
      ∃ used, us ++ r = used ++ (takeValue r).2 ∧
        Item.TakenFrom used (.attribute space name nameSpan e (takeValue r).1) := by
    cases r with
    | nil => exact ⟨us, rfl, valueless⟩
    | cons v r =>
        cases literal : v.value? with
        | none => exact ⟨us, by simp [takeValue, literal], by simpa [takeValue, literal]⟩
        | some found =>
            rw [takeValue_of_value? literal]
            exact ⟨us ++ [v], by simp, .value valueless literal⟩
  rcases takeItem_cases t rest with
    ⟨e, r, rfl, name, equals, taken⟩ | ⟨c, n, e, r, rfl, space, colon, name, equals, taken⟩ | taken
  · rw [taken]
    exact value (.assigned name equals)
  · rw [taken]
    exact value (.spaced space colon name equals)
  · rw [taken]
    exact ⟨[t], rfl, .word t⟩

/-- The items behind the name of a tag are taken from parts of its words. -/
theorem takenFrom_of_mem_items {ts : List Token} {i : Item} (member : i ∈ items ts) :
    ∃ used, used <:+: ts ∧ Item.TakenFrom used i := by
  induction ts using items.induct with
  | case1 => simp [items_nil] at member
  | case2 t rest ih =>
      obtain ⟨used, spelled, taken⟩ := takenFrom_takeItem t rest
      rw [items] at member
      rcases List.mem_cons.1 member with rfl | member
      · exact ⟨used, ⟨[], _, by rw [spelled, List.nil_append]⟩, taken⟩
      · obtain ⟨used', part, taken'⟩ := ih member
        exact ⟨used', part.trans ((takeItem_suffix t rest).isInfix.trans (List.infix_cons
          List.infix_rfl)), taken'⟩

/-- The tokens that name an attribute: one name, or a namespace, a colon and a name. -/
inductive NameIn (ts : List Token) : Option String → String → Span → Prop where
  | plain {n : Token} : n ∈ ts → n.isName → NameIn ts none n.word n.span
  | spaced {s c n : Token} : [s, c, n] <:+: ts → s.isName → c.kind = .colon → n.isName →
      NameIn ts (some s.word) (spacedName c n) ⟨s.start, n.stop⟩

theorem NameIn.mono {us ts : List Token} {space : Option String} {name : String} {nameSpan : Span}
    (named : NameIn us space name nameSpan) (part : us <:+: ts) : NameIn ts space name nameSpan := by
  cases named with
  | plain member isName => exact .plain (part.subset member) isName
  | spaced row space colon name => exact .spaced (row.trans part) space colon name

theorem Item.TakenFrom.nameIn {us : List Token} {space : Option String} {name : String}
    {nameSpan : Span} {e : Token} {value : Option (Token × Value)}
    (taken : TakenFrom us (.attribute space name nameSpan e value)) :
    NameIn us space name nameSpan := by
  have valueless {us : List Token} (taken : TakenFrom us (.attribute space name nameSpan e none)) :
      NameIn us space name nameSpan := by
    cases taken with
    | assigned name => exact .plain List.mem_cons_self name
    | spaced space colon name _ => exact .spaced ⟨[], [e], rfl⟩ space colon name
  cases value with
  | none => exact valueless taken
  | some v =>
      cases taken with
      | value taken => exact (valueless taken).mono (List.prefix_append _ _).isInfix

/-- The attributes of a tag are named by its words. -/
theorem nameIn_of_read? {ws : List Token} {h : Head} {ps : List Problem} {a : Attribute}
    (read : read? ws = some (h, ps)) (member : a ∈ h.attributes) :
    NameIn ws a.space a.name a.nameSpan := by
  obtain ⟨⟨h₀, rest⟩, begun, -⟩ := Option.map_eq_some_iff.1 read
  obtain ⟨stop, rfl⟩ := eq_of_read? begun read
  obtain ⟨none, before, b, rfl, -⟩ := begin_of_ofWords? begun
  rw [none, List.nil_append] at member
  obtain ⟨i, inside, found⟩ := List.mem_filterMap.1 member
  obtain ⟨used, part, taken⟩ := takenFrom_of_mem_items inside
  unfold Item.attribute? at found
  split at found
  · cases found
    exact taken.nameIn.mono (part.trans ⟨before ++ [b], [], by simp⟩)
  · cases found

/-- A tag reaches up to the last token of the item that was added. -/
theorem Item.TakenFrom.stop {used : List Token} {i : Item} (taken : TakenFrom used i) (h : Head) :
    ∃ b, used.getLast? = some b ∧ (h.addItem i).1.stop = b.stop := by
  cases taken with
  | word t => exact ⟨t, rfl, by cases literal : t.value? <;> simp [addItem, literal]⟩
  | @assigned _ e _ _ => exact ⟨e, rfl, rfl⟩
  | @spaced _ _ _ e _ _ _ _ => exact ⟨e, rfl, rfl⟩
  | @value _ _ _ _ _ v _ _ _ => exact ⟨v, by simp, rfl⟩

/-- A tag reaches up to the last token that was added. -/
theorem stop_addItems (ts : List Token) (h : Head) :
    (h.addItems (items ts)).1.stop = (ts.getLast?.map Token.stop).getD h.stop := by
  induction ts using items.induct generalizing h with
  | case1 => simp [items_nil, addItems]
  | case2 t rest ih =>
      obtain ⟨used, spelled, taken⟩ := takenFrom_takeItem t rest
      obtain ⟨b, last, stop⟩ := taken.stop h
      rw [items]
      simp only [addItems, ih, stop]
      rw [spelled, List.getLast?_append, last]
      cases (takeItem t rest).2.getLast? <;> rfl

/-- A tag ends with its last word. -/
theorem stop_of_read? {ws : List Token} {h : Head} {ps : List Problem}
    (read : read? ws = some (h, ps)) : ∃ b, ws.getLast? = some b ∧ h.stop = b.stop := by
  obtain ⟨⟨h₀, rest⟩, begun, added⟩ := Option.map_eq_some_iff.1 read
  have stop := stop_addItems rest h₀
  rw [show h₀.addItems (items rest) = (h, ps) from added] at stop
  obtain ⟨-, used, b, rfl, begins⟩ := begin_of_ofWords? begun
  rw [List.getLast?_append, List.getLast?_cons]
  cases last : rest.getLast? with
  | none => exact ⟨b, rfl, by simpa [last, begins] using stop⟩
  | some t => exact ⟨t, rfl, by simpa [last] using stop⟩

/-! ## Words that are read without an error -/

/-- Items of the grammar raise warnings at most. -/
theorem errorFree_of_items {ts : List Token} (grammatical : Items ts) (h : Head) :
    ErrorFree (h.addItems (items ts)).2 := by
  induction grammatical generalizing h with
  | nil => simp [items_nil, addItems]
  | literal literal _ ih =>
      obtain ⟨value, literal'⟩ := Token.isLiteral_iff.1 literal
      simp only [items_literal literal, addItems, addItem, literal', errorFree_append]
      refine ⟨?_, ih _⟩
      split <;> simp [Cause.severity]
  | assigned name equals literal _ ih =>
      obtain ⟨value, literal⟩ := Token.isLiteral_iff.1 literal
      simp only [items_assigned name equals literal, addItems, addItem, errorFree_append]
      exact ⟨by simp, ih _⟩
  | spaced space colon name equals literal _ ih =>
      obtain ⟨value, literal⟩ := Token.isLiteral_iff.1 literal
      simp only [items_spaced space colon name equals literal, addItems, addItem, errorFree_append]
      exact ⟨by simp, ih _⟩

/-- An attribute that raises no error has a value. -/
theorem takeValue_of_errorFree {h : Head} {space : Option String} {name : String} {nameSpan : Span}
    {e : Token} {r : List Token}
    (errorFree : ErrorFree (h.addItem (.attribute space name nameSpan e (takeValue r).1)).2) :
    ∃ v r' value, r = v :: r' ∧ v.value? = some value ∧ takeValue r = (some (v, value), r') := by
  cases r with
  | nil => simp [takeValue, addItem, Cause.severity] at errorFree
  | cons v r' =>
      cases literal : v.value? with
      | none => simp [takeValue, literal, addItem, Cause.severity] at errorFree
      | some value => exact ⟨v, r', value, rfl, literal, takeValue_of_value? literal r'⟩

/-- Where no error is raised, the words are items of the grammar.  Unknown tokens
are the only ones that are passed over in silence. -/
theorem items_of_errorFree {ts : List Token} (known : ∀ t ∈ ts, t.kind ≠ .unknown) {h : Head}
    (errorFree : ErrorFree (h.addItems (items ts)).2) : Items ts := by
  induction ts using items.induct generalizing h with
  | case1 => exact .nil
  | case2 t rest ih =>
      rw [items] at errorFree
      simp only [addItems, errorFree_append] at errorFree
      obtain ⟨now, later⟩ := errorFree
      rcases takeItem_cases t rest with
        ⟨e, r, rfl, name, equals, taken⟩ | ⟨c, n, e, r, rfl, space, colon, name, equals, taken⟩ |
          taken
      · rw [taken] at now later ih
        obtain ⟨v, r', value, rfl, literal, took⟩ := takeValue_of_errorFree now
        rw [took] at later ih
        refine .assigned name equals (Token.isLiteral_iff.2 ⟨_, literal⟩) (ih ?_ later)
        exact fun u member => known u (by simp [member])
      · rw [taken] at now later ih
        obtain ⟨v, r', value, rfl, literal, took⟩ := takeValue_of_errorFree now
        rw [took] at later ih
        refine .spaced space colon name equals (Token.isLiteral_iff.2 ⟨_, literal⟩) (ih ?_ later)
        exact fun u member => known u (by simp [member])
      · rw [taken] at now later ih
        have rest : Items rest := ih (fun u member => known u (by simp [member])) later
        cases literal : t.value? with
        | some value => exact .literal (Token.isLiteral_iff.2 ⟨_, literal⟩) rest
        | none =>
            -- A word without a value is reported unless it is unknown to the scanner.
            have unknown := known t List.mem_cons_self
            simp only [addItem, literal] at now
            split at now
            · simp [Cause.severity] at now
            · exact absurd ‹_› unknown
            · simp [Cause.severity] at now

/-- A phrase is read, and without an error. -/
theorem read?_of_phrase {ws : List Token} (phrase : Phrase ws) :
    ∃ p, read? ws = some p ∧ ErrorFree p.2 := by
  cases phrase with
  | plain name plain items =>
      exact ⟨_, by rw [read?, ofWords?_plain name plain]; rfl, errorFree_of_items items _⟩
  | spaced space colon name items =>
      exact ⟨_, by rw [read?, ofWords?_spaced space colon name]; rfl, errorFree_of_items items _⟩
  | anonymous literal items =>
      obtain ⟨value, literal⟩ := Token.isLiteral_iff.1 literal
      exact ⟨_, by rw [read?, ofWords?_anonymous literal]; rfl, errorFree_of_items items _⟩

/-- **The words of a statement are read without an error exactly if they form a
phrase.** -/
theorem phrase_iff {ws : List Token} (known : ∀ w ∈ ws, w.kind ≠ .unknown) :
    Phrase ws ↔ ∃ p, read? ws = some p ∧ ErrorFree p.2 := by
  constructor
  · exact read?_of_phrase
  rintro ⟨⟨h, ps⟩, found, errorFree⟩
  cases ws with
  | nil => simp [read?, ofWords?] at found
  | cons first rest =>
      rw [read?] at found
      obtain ⟨⟨h', r⟩, begun, added⟩ := Option.map_eq_some_iff.1 found
      have items_ (inside : ∀ t ∈ r, t ∈ first :: rest) : Items r := by
        apply items_of_errorFree (fun t member => known t (inside t member)) (h := h')
        rw [show h'.addItems (items r) = (h, ps) from added]
        exact errorFree
      rcases ofWords?_cases first rest with
        ⟨name, plain, same⟩ | ⟨c, n, r', rfl, space, colon, name, same⟩ | ⟨noName, same⟩
      · rw [same] at begun
        obtain ⟨rfl, rfl⟩ : _ = h' ∧ rest = r := by simpa using begun
        exact .plain name plain (items_ fun t member => List.mem_cons_of_mem _ member)
      · rw [same] at begun
        obtain ⟨rfl, rfl⟩ : _ = h' ∧ r' = r := by simpa using begun
        exact .spaced space colon name (items_ fun t member => by simp [member])
      · rw [same] at begun
        obtain ⟨value, literal, begun⟩ := Option.map_eq_some_iff.1 begun
        obtain ⟨rfl, rfl⟩ : _ = h' ∧ rest = r := by simpa using begun
        exact .anonymous (Token.isLiteral_iff.2 ⟨_, literal⟩)
          (items_ fun t member => List.mem_cons_of_mem _ member)

end Head

end PackageRecipe.Sdl
