import PackageRecipe.Proofs.Sdl.Origin

/-!
# The literals of a statement

The words of a statement around one of its literals: the name of the tag, the items in front of
the literal, the words that make the literal the value of an attribute, and the items behind it.

## Main Definitions

* `Head.Lead` — the words in front of a literal that belong to the same item
* `Head.Named` — the words that name a tag, in front of its items
* `Head.Around` — a statement that is cut at a literal

## Design Notes

`Items.exists_cut` follows the grammar once, and `Head.exists_around` adds the name.  What a tag
has in front of a literal, and what the literal itself is to the tag, is then read off the parts
(`Around.filter_values`, `Around.value_of_mem`, `Around.attribute_of_mem`), because the tokens of
the parts stand in order.
-/

namespace PackageRecipe.Sdl

open PackageRecipe.Text

/-! ## Values come from tokens -/

theorem Token.IsLiteral.ne_colon {t : Token} (literal : t.IsLiteral) : t.kind ≠ .colon :=
  fun colon => not_isLiteral_of_mark (mark?_of_colon colon) literal

theorem Token.IsLiteral.ne_equals {t : Token} (literal : t.IsLiteral) : t.kind ≠ .equals :=
  fun equals => not_isLiteral_of_mark (mark?_of_equals equals) literal

theorem Token.isLiteral_of_string {l : Token} {raw closed : Bool}
    (kind : l.kind = .string raw closed) : l.IsLiteral := by
  cases raw <;> simp [IsLiteral, value?, literal?, kind]

/-- A value whose kind is a string is read from a string. -/
theorem Token.kind_of_string {l : Token} {v : Value} (value : l.value? = some v)
    (kind : v.kind = .string) : ∃ raw closed, l.kind = .string raw closed := by
  obtain ⟨⟨k, s⟩, literal, rfl⟩ := Option.map_eq_some_iff.1 value
  obtain rfl : k = .string := kind
  unfold Token.literal? at literal
  split at literal
  case h_1 | h_2 => exact ⟨_, _, ‹_›⟩
  case h_7 =>
    unfold Token.keyword? at literal
    split at literal <;> simp at literal
  all_goals simp at literal

namespace Head

/-- The value of an item, positional or of an attribute. -/
def Item.carried? (i : Item) : Option Value :=
  i.value?.or (i.attribute?.map Attribute.value)

theorem Item.carried?_of_value? {i : Item} {v : Value} (adds : i.value? = some v) :
    i.carried? = some v := by
  rw [carried?, adds, Option.some_or]

theorem Item.carried?_of_attribute? {i : Item} {a : Attribute} (adds : i.attribute? = some a) :
    i.carried? = some a.value := by
  cases i with
  | word t => simp [attribute?] at adds
  | «attribute» => simp [carried?, value?, adds]

/-- The value of an item is the value of one of its tokens. -/
theorem Item.TakenFrom.exists_token {used : List Token} {i : Item} (taken : TakenFrom used i)
    {v : Value} (carried : i.carried? = some v) : ∃ l ∈ used, l.value? = some v := by
  cases taken with
  | word t =>
      refine ⟨t, List.mem_singleton_self t, ?_⟩
      simpa [Item.carried?, Item.value?, Item.attribute?] using carried
  | assigned | spaced => simp [Item.carried?, Item.value?, Item.attribute?] at carried
  | @value us space name nameSpan e l w valueless literal =>
      obtain rfl : w = v := by
        simpa [Item.carried?, Item.value?, Item.attribute?] using carried
      exact ⟨l, by simp, literal⟩

/-- What items add as values is the value of one of their tokens. -/
theorem exists_token_of_mem_items {ts : List Token} {i : Item} (member : i ∈ items ts) {v : Value}
    (carried : i.carried? = some v) : ∃ l ∈ ts, l.value? = some v := by
  obtain ⟨used, part, taken⟩ := takenFrom_of_mem_items member
  obtain ⟨l, inside, value⟩ := taken.exists_token carried
  exact ⟨l, part.subset inside, value⟩

/-- A tag without a name begins with a value. -/
theorem exists_token_of_ofWords? {ws rest : List Token} {h : Head}
    (begun : ofWords? ws = some (h, rest)) {v : Value} (member : v ∈ h.values) :
    ∃ l ∈ ws, l.value? = some v := by
  cases ws with
  | nil => simp [ofWords?] at begun
  | cons first words =>
      rcases ofWords?_cases first words with
        ⟨_, _, same⟩ | ⟨_, _, _, rfl, _, _, _, same⟩ | ⟨_, same⟩
      · cases same.symm.trans begun
        simp at member
      · cases same.symm.trans begun
        simp at member
      · rw [same] at begun
        obtain ⟨w, literal, found⟩ := Option.map_eq_some_iff.1 begun
        cases found
        obtain rfl := List.mem_singleton.1 member
        exact ⟨first, List.mem_cons_self, literal⟩

/-- The values of a tag are those of its words. -/
theorem exists_token_of_read? {ws : List Token} {h : Head} {ps : List Problem}
    (read : read? ws = some (h, ps)) {v : Value}
    (member : v ∈ h.values ∨ ∃ a ∈ h.attributes, a.value = v) : ∃ l ∈ ws, l.value? = some v := by
  obtain ⟨⟨h₀, rest⟩, begun, -⟩ := Option.map_eq_some_iff.1 read
  obtain ⟨stop, rfl⟩ := eq_of_read? begun read
  obtain ⟨none, before, b, rfl, -⟩ := begin_of_ofWords? begun
  have behind {i : Item} (inside : i ∈ items rest) (carried : i.carried? = some v) :
      ∃ l ∈ before ++ b :: rest, l.value? = some v := by
    obtain ⟨l, inside, value⟩ := exists_token_of_mem_items inside carried
    exact ⟨l, by simp [inside], value⟩
  rcases member with member | ⟨a, member, rfl⟩
  · rcases List.mem_append.1 member with member | member
    · exact exists_token_of_ofWords? begun member
    · obtain ⟨i, inside, adds⟩ := List.mem_filterMap.1 member
      exact behind inside (Item.carried?_of_value? adds)
  · rw [none, List.nil_append] at member
    obtain ⟨i, inside, adds⟩ := List.mem_filterMap.1 member
    exact behind inside (Item.carried?_of_attribute? adds)

end Head

/-- The values of a tag of a text are read from its tokens. -/
theorem Document.exists_token_of_mem {text : List Char} {t : Tag}
    (member : t ∈ Tag.preorder (Document.ofText text).root.children) {v : Value}
    (held : v ∈ t.values ∨ ∃ a ∈ t.attributes, a.value = v) :
    ∃ l ∈ (Lexing.ofText text).tokens, l.value? = some v := by
  obtain ⟨h, ps, start, stop, children, ⟨ws, part, read⟩, rfl⟩ :=
    (Document.yields text).tags t member
  obtain ⟨l, inside, value⟩ := Head.exists_token_of_read? read held
  exact ⟨l, part.subset inside, value⟩

/-! ## Items around a literal -/

/-- Items end with a literal. -/
theorem Items.isLiteral_of_getLast? {ts : List Token} (grammatical : Items ts) :
    ∀ t ∈ ts.getLast?, t.IsLiteral := by
  have last {w : Token} {ts : List Token} (literal : w.IsLiteral)
      (rest : ∀ t ∈ ts.getLast?, t.IsLiteral) : ∀ t ∈ (w :: ts).getLast?, t.IsLiteral := by
    intro t ends
    rw [List.getLast?_cons] at ends
    cases behind : ts.getLast? with
    | none => simp_all
    | some u => simp_all
  induction grammatical with
  | nil => simp
  | literal literal _ ih => exact last literal ih
  | assigned _ _ literal _ ih => simpa [List.getLast?_cons] using last literal ih
  | spaced _ _ _ _ literal _ ih => simpa [List.getLast?_cons] using last literal ih

namespace Head

/-- A literal `l` with the value `v` makes an item together with the words in front of it that
belong to an attribute. -/
inductive Lead (l : Token) (v : Value) : List Token → Item → Prop where
  | positional : Lead l v [] (.word l)
  | assigned {n e : Token} : n.isName → e.kind = .equals →
      Lead l v [n, e] (.attribute none n.word n.span e (some (l, v)))
  | spaced {s c n e : Token} : s.isName → c.kind = .colon → n.isName → e.kind = .equals →
      Lead l v [s, c, n, e]
        (.attribute (some s.word) (spacedName c n) ⟨s.start, n.stop⟩ e (some (l, v)))

/-- The literal is what its item adds to a tag. -/
theorem Lead.adds {l : Token} {v : Value} {lead : List Token} {i : Item} (leads : Lead l v lead i)
    (value : l.value? = some v) :
    i.value? = some v ∨ ∃ a, i.attribute? = some a ∧ a.value = v := by
  cases leads with
  | positional => exact .inl value
  | assigned | spaced => exact .inr ⟨_, rfl, rfl⟩

/-- A positional value stands in the place of its token. -/
theorem Lead.span_of_value? {l : Token} {v w : Value} {lead : List Token} {i : Item}
    (leads : Lead l v lead i) (adds : i.value? = some w) : w.span = l.span := by
  cases leads with
  | positional => exact Token.span_of_value? adds
  | assigned | spaced => simp [Item.value?] at adds

end Head

/-- **The items in front of a literal, and those behind it.** -/
theorem Items.exists_cut {st more : List Token} {l : Token} {v : Value}
    (grammatical : Items (st ++ l :: more)) (value : l.value? = some v) :
    ∃ pre lead i, st = pre ++ lead ∧ Items pre ∧ Items more ∧ Head.Lead l v lead i ∧
      Head.items (st ++ l :: more) = Head.items pre ++ i :: Head.items more := by
  have isLiteral : l.IsLiteral := Token.isLiteral_iff.2 ⟨v, value⟩
  have noName := isLiteral.isName_eq_false
  generalize whole : st ++ l :: more = ts at grammatical
  induction grammatical generalizing st with
  | nil => simp at whole
  | @literal w ts literal rest ih =>
      cases st with
      | nil =>
          obtain ⟨rfl, rfl⟩ := List.cons.inj whole
          refine ⟨[], [], .word l, rfl, .nil, rest, .positional, ?_⟩
          rw [Head.items_nil, Head.items_literal literal, List.nil_append]
      | cons w' st =>
          obtain ⟨rfl, later⟩ := List.cons.inj whole
          obtain ⟨pre, lead, i, rfl, before, after, leads, same⟩ := ih later
          refine ⟨w' :: pre, lead, i, rfl, .literal literal before, after, leads, ?_⟩
          rw [Head.items_literal literal, same, Head.items_literal literal, List.cons_append]
  | @assigned n e w ts name equals literal rest ih =>
      obtain ⟨value', literal'⟩ := Token.isLiteral_iff.1 literal
      rcases st with _ | ⟨n', _ | ⟨e', _ | ⟨w', st⟩⟩⟩ <;> simp only [List.cons_append,
        List.nil_append, List.cons.injEq] at whole
      · simp [whole.1, name] at noName
      · exact absurd (whole.2.1 ▸ equals) isLiteral.ne_equals
      · obtain ⟨rfl, rfl, rfl, rfl⟩ := whole
        refine ⟨[], [n', e'], _, rfl, .nil, rest, .assigned name equals, ?_⟩
        rw [Head.items_nil, List.nil_append]
        exact Head.items_assigned name equals value more
      · obtain ⟨rfl, rfl, rfl, later⟩ := whole
        obtain ⟨pre, lead, i, rfl, before, after, leads, same⟩ := ih later
        refine ⟨n' :: e' :: w' :: pre, lead, i, rfl, .assigned name equals literal before, after,
          leads, ?_⟩
        rw [Head.items_assigned name equals literal', same,
          Head.items_assigned name equals literal', List.cons_append]
  | @spaced s c n e w ts space colon name equals literal rest ih =>
      obtain ⟨value', literal'⟩ := Token.isLiteral_iff.1 literal
      rcases st with _ | ⟨s', _ | ⟨c', _ | ⟨n', _ | ⟨e', _ | ⟨w', st⟩⟩⟩⟩⟩ <;> simp only
        [List.cons_append, List.nil_append, List.cons.injEq] at whole
      · simp [whole.1, space] at noName
      · exact absurd (whole.2.1 ▸ colon) isLiteral.ne_colon
      · simp [whole.2.2.1, name] at noName
      · exact absurd (whole.2.2.2.1 ▸ equals) isLiteral.ne_equals
      · obtain ⟨rfl, rfl, rfl, rfl, rfl, rfl⟩ := whole
        refine ⟨[], [s', c', n', e'], _, rfl, .nil, rest, .spaced space colon name equals, ?_⟩
        rw [Head.items_nil, List.nil_append]
        exact Head.items_spaced space colon name equals value more
      · obtain ⟨rfl, rfl, rfl, rfl, rfl, later⟩ := whole
        obtain ⟨pre, lead, i, rfl, before, after, leads, same⟩ := ih later
        refine ⟨s' :: c' :: n' :: e' :: w' :: pre, lead, i, rfl,
          .spaced space colon name equals literal before, after, leads, ?_⟩
        rw [Head.items_spaced space colon name equals literal', same,
          Head.items_spaced space colon name equals literal', List.cons_append]

namespace Head

/-! ## Statements around a literal -/

/-- The words that name a tag, in front of its items.  A tag without a name begins with a
literal, which is the first of its items. -/
inductive Named : List Token → List Token → Option String → String → Prop where
  | anonymous {v : Token} {ts : List Token} : v.IsLiteral → Named [] (v :: ts) none anonymousName
  | plain {n : Token} {ts : List Token} : n.isName → ¬ OpensSpace ts → Named [n] ts none n.word
  | spaced {s c n : Token} {ts : List Token} : s.isName → c.kind = .colon → n.isName →
      Named [s, c, n] ts (some s.word) n.word

/-- No value stands in a name. -/
theorem Named.value?_eq_none {hd ts : List Token} {space : Option String} {name : String}
    (named : Named hd ts space name) : ∀ t ∈ hd, t.value? = none := by
  cases named with
  | anonymous => simp
  | plain name => simpa using Token.value?_eq_none_of_isName name
  | spaced space colon name =>
      simpa using ⟨Token.value?_eq_none_of_isName space,
        Token.value?_eq_none_of_mark (Token.mark?_of_colon colon),
        Token.value?_eq_none_of_isName name⟩

/-- A tag is its name and its items. -/
theorem exists_named_of_read? {ws : List Token} {h : Head} {ps : List Problem} (phrase : Phrase ws)
    (read : read? ws = some (h, ps)) :
    ∃ hd ts, ws = hd ++ ts ∧ Named hd ts h.space h.name ∧ Items ts ∧
      h.values = (items ts).filterMap Item.value? ∧
      h.attributes = (items ts).filterMap Item.attribute? := by
  cases phrase with
  | @plain n ts name plain grammatical =>
      obtain ⟨stop, rfl⟩ := eq_of_read? (ofWords?_plain name plain) read
      exact ⟨[n], ts, rfl, .plain name plain, grammatical, rfl, rfl⟩
  | @spaced s c n ts space colon name grammatical =>
      obtain ⟨stop, rfl⟩ := eq_of_read? (ofWords?_spaced space colon name ts) read
      exact ⟨[s, c, n], ts, rfl, .spaced space colon name, grammatical, rfl, rfl⟩
  | @anonymous v ts literal grammatical =>
      obtain ⟨value, literal'⟩ := Token.isLiteral_iff.1 literal
      obtain ⟨stop, rfl⟩ := eq_of_read? (ofWords?_anonymous literal' ts) read
      refine ⟨[], v :: ts, rfl, .anonymous literal, .literal literal grammatical, ?_, ?_⟩
      · rw [items_literal literal, List.filterMap_cons]
        simp [Item.value?, literal']
      · rw [items_literal literal, List.filterMap_cons]
        rfl

/-- The statement of the tag `h` is cut at the literal `l` with the value `v`: `hd` is its name,
`pre` are the items in front of the one that the literal belongs to, `i` is that item with the
words `lead` in front of the literal, and `more` are the items behind it. -/
structure Around (l : Token) (v : Value) (h : Head) (hd pre lead more : List Token)
    (i : Item) : Prop where
  value : l.value? = some v
  placed : Placed (hd ++ (pre ++ lead) ++ l :: more)
  named : Named hd (pre ++ lead ++ l :: more) h.space h.name
  grammatical : Items (pre ++ lead ++ l :: more)
  before : Items pre
  after : Items more
  leads : Lead l v lead i
  values : h.values = (items pre ++ i :: items more).filterMap Item.value?
  attributes : h.attributes = (items pre ++ i :: items more).filterMap Item.attribute?

/-- **A statement with a literal has a name and items around it.** -/
theorem exists_around {st more : List Token} {l : Token} {v : Value} {h : Head} {ps : List Problem}
    (phrase : Phrase (st ++ l :: more)) (read : read? (st ++ l :: more) = some (h, ps))
    (placed : Placed (st ++ l :: more)) (value : l.value? = some v) :
    ∃ hd pre lead i, st = hd ++ (pre ++ lead) ∧ Around l v h hd pre lead more i := by
  obtain ⟨hd, ts, whole, named, grammatical, values, attributes⟩ :=
    exists_named_of_read? phrase read
  obtain ⟨rest, rfl, rfl⟩ : ∃ rest, st = hd ++ rest ∧ ts = rest ++ l :: more := by
    rcases List.append_eq_append_iff.1 whole with ⟨front, rfl, behind⟩ | ⟨rest, rfl, behind⟩
    · -- The literal would belong to the name.
      cases front with
      | nil => exact ⟨[], by simp, behind.symm⟩
      | cons t front =>
          obtain ⟨rfl, -⟩ := List.cons.inj behind
          simp [named.value?_eq_none l (by simp)] at value
    · exact ⟨rest, rfl, behind⟩
  obtain ⟨pre, lead, i, rfl, before, after, leads, same⟩ := grammatical.exists_cut value
  exact ⟨hd, pre, lead, i, rfl, value, placed, named, grammatical, before, after, leads,
    same ▸ values, same ▸ attributes⟩

namespace Around

variable {l : Token} {v : Value} {h : Head} {hd pre lead more : List Token} {i : Item}

theorem start_lt_stop (around : Around l v h hd pre lead more i) : l.start < l.stop :=
  around.placed.right.start_lt_stop List.mem_cons_self

/-- The values of the items in front of the literal end there. -/
theorem stop_le_start (around : Around l v h hd pre lead more i) {j : Item} (member : j ∈ items pre)
    {w : Value} (carried : j.carried? = some w) : w.span.stop ≤ l.start := by
  obtain ⟨t, inside, value⟩ := exists_token_of_mem_items member carried
  rw [Token.span_of_value? value]
  exact around.placed.stop_le_start (by simp [inside]) List.mem_cons_self

/-- The values of the items behind the literal begin there. -/
theorem stop_le_span (around : Around l v h hd pre lead more i) {j : Item} (member : j ∈ items more)
    {w : Value} (carried : j.carried? = some w) :
    l.stop ≤ w.span.start ∧ w.span.start < w.span.stop := by
  obtain ⟨t, inside, value⟩ := exists_token_of_mem_items member carried
  rw [Token.span_of_value? value]
  exact ⟨around.placed.right.head_stop_le_start inside,
    around.placed.right.tail.start_lt_stop inside⟩

/-- Only the item of the literal has a value in its place. -/
theorem eq_item (around : Around l v h hd pre lead more i) {j : Item}
    (member : j ∈ items pre ++ i :: items more) {w : Value} (carried : j.carried? = some w)
    (same : w.span = l.span) : j = i := by
  have nonempty := around.start_lt_stop
  rcases List.mem_append.1 member with before | member
  · have apart := around.stop_le_start before carried
    simp only [same, Token.span] at apart
    omega
  · rcases List.mem_cons.1 member with rfl | behind
    · rfl
    · obtain ⟨apart, -⟩ := around.stop_le_span behind carried
      simp only [same, Token.span] at apart
      omega

/-- A positional value in the place of the literal is the literal. -/
theorem value_of_mem (around : Around l v h hd pre lead more i) {w : Value} (member : w ∈ h.values)
    (same : w.span = l.span) : i.value? = some w := by
  rw [around.values] at member
  obtain ⟨j, inside, adds⟩ := List.mem_filterMap.1 member
  rwa [← around.eq_item inside (Item.carried?_of_value? adds) same]

/-- An attribute with a value in the place of the literal is made of the literal. -/
theorem attribute_of_mem (around : Around l v h hd pre lead more i) {a : Attribute}
    (member : a ∈ h.attributes) (same : a.value.span = l.span) : i.attribute? = some a := by
  rw [around.attributes] at member
  obtain ⟨j, inside, adds⟩ := List.mem_filterMap.1 member
  rwa [← around.eq_item inside (Item.carried?_of_attribute? adds) same]

/-- The literal is a value of the tag. -/
theorem mem_valueSpans (around : Around l v h hd pre lead more i) (start stop : Nat)
    (children : List Tag) : l.span ∈ (h.toTag start stop children).valueSpans := by
  have inside : i ∈ items pre ++ i :: items more := by simp
  rw [← Token.span_of_value? around.value]
  rcases around.leads.adds around.value with adds | ⟨a, adds, rfl⟩
  · apply List.mem_append_left
    refine List.mem_map_of_mem (?_ : v ∈ h.values)
    rw [around.values]
    exact List.mem_filterMap.2 ⟨i, inside, adds⟩
  · apply List.mem_append_right
    refine List.mem_map.2 ⟨a, (?_ : a ∈ h.attributes), rfl⟩
    rw [around.attributes]
    exact List.mem_filterMap.2 ⟨i, inside, adds⟩

/-- The positional values of the tag that end in front of the literal are those of the items in
front of it. -/
theorem filter_values (around : Around l v h hd pre lead more i) :
    h.values.filter (·.span.stop ≤ l.start) = (items pre).filterMap Item.value? := by
  have early : ∀ w ∈ (items pre).filterMap Item.value?, decide (w.span.stop ≤ l.start) := by
    intro w member
    obtain ⟨j, inside, adds⟩ := List.mem_filterMap.1 member
    exact decide_eq_true (around.stop_le_start inside (Item.carried?_of_value? adds))
  have late : ∀ w ∈ (i :: items more).filterMap Item.value?,
      ¬ decide (w.span.stop ≤ l.start) := by
    intro w member early
    have early := of_decide_eq_true early
    have nonempty := around.start_lt_stop
    obtain ⟨j, inside, adds⟩ := List.mem_filterMap.1 member
    rcases List.mem_cons.1 inside with rfl | behind
    · rw [around.leads.span_of_value? adds] at early
      exact absurd early (Nat.not_le.2 nonempty)
    · have := around.stop_le_span behind (Item.carried?_of_value? adds)
      omega
  rw [around.values, List.filterMap_append, List.filter_append, List.filter_eq_self.2 early,
    List.filter_eq_nil_iff.2 late, List.append_nil]

end Around

end Head

end PackageRecipe.Sdl
