import PackageRecipe.Proofs.Sdl.Lookahead
import PackageRecipe.Proofs.Sdl.Prefix

/-!
# Reading token by token

No check fails that a reader makes which takes one token after the other, and it reads
the document that is read from all tokens at once.

## Main Definitions

* `Loop` — the rounds of a loop that comes to its end
* `endOf` — the byte offset behind the last token
* `ReadsBody` — the content of a block is read up to its closing brace

## Design Notes

Each function is compared with the groups of the tokens ahead.  A loop takes whole
items or whole blocks, so its statement follows the recursion of `Head.items` or counts
the braces (`rounds_item`, `rounds_block`).  Functions that call each other are compared
by induction on the number of tokens ahead: a statement reads its block on fewer tokens
(`statement_eq`), and the tokens behind a statement are fewer as it takes at least one
(`readsBody`, `children_eq`).

What it means that no check fails is said check by check: `down_eq_ok_iff` for counters,
`tokenAt_eq_ok_iff` for tokens, `cut_eq_ok_iff` for cuts, and `rounds_eq_ok_iff` and
`children_eq_ok_iff` for loops.
-/

namespace PackageRecipe.Sdl.Descent

open PackageRecipe.Text
open Statement (Words)
open Statement.Suffix (Ends)

/-! ## The name of a tag -/

section Names

variable {text : List Char} {ts : List Token} (fits : Fits text ts) {s : State} {first : Token}
  {more : List Token} (stands : ahead ts s = first :: more)

include fits stands

/-- The name of a tag is read as from the words of its statement. -/
theorem head_of_some {h : Head} {left : List Token}
    (begun : Head.ofWords? (first :: more) = some (h, left)) :
    ∃ used, first :: more = used ++ left ∧ used ≠ [] ∧
      head text ts first s = .ok (some h, s.after used []) := by
  have member : first ∈ ts := mem_of_ahead stands List.mem_cons_self
  obtain ⟨spaced, space, opens⟩ := spaceAhead_eq fits stands
  have one : s.take 1 = s.after [first] [] := s.take_eq_after [first]
  have atFirst : last ts (s.after [first] []) = .ok first := last_after [] stands []
  rcases Head.ofWords?_cases first more with
    ⟨name, plain, same⟩ | ⟨c, n, r, rfl, name, isColon, second, same⟩ | ⟨noName, same⟩
  · rw [same] at begun
    cases begun
    obtain rfl : spaced = false := by simpa [plain] using opens
    refine ⟨[first], rfl, by simp, ?_⟩
    simp [head, nameAhead_eq fits stands, name, space, word_eq fits member, one, atFirst]
  · rw [same] at begun
    cases begun
    obtain rfl : spaced = true := opens.2 ⟨isColon, second⟩
    have third : tokenAt ts (s.place + 2) = .ok n := tokenAt_eq stands rfl
    have three : s.take 3 = s.after [first, c, n] [] := s.take_eq_after [first, c, n]
    have atThird : last ts (s.after [first, c, n] []) = .ok n := last_after [first, c] stands []
    have spelled : word text n = .ok n.word := word_eq fits (mem_of_ahead stands (by simp))
    refine ⟨[first, c, n], rfl, by simp, ?_⟩
    simp [head, nameAhead_eq fits stands, name, space, third, word_eq fits member, spelled, three,
      atThird]
  · rw [same] at begun
    obtain ⟨v, literal, found⟩ := Option.map_eq_some_iff.1 begun
    cases found
    refine ⟨[first], rfl, by simp, ?_⟩
    simp [head, nameAhead_eq fits stands, noName, value?_eq fits member, literal, one, atFirst]

/-- A statement that begins with neither a name nor a value is skipped. -/
theorem head_of_none (nameless : Head.ofWords? (first :: more) = none) :
    head text ts first s = (do
      let s' ← skipStatement ts (s.after [] [⟨first.span, .expectedTagName⟩])
      .ok (none, s')) := by
  have member : first ∈ ts := mem_of_ahead stands List.mem_cons_self
  rcases Head.ofWords?_cases first more with
    ⟨_, _, same⟩ | ⟨_, _, _, rfl, _, _, _, same⟩ | ⟨noName, same⟩
  · simp [same] at nameless
  · simp [same] at nameless
  · rw [same, Option.map_eq_none_iff] at nameless
    simp [head, nameAhead_eq fits stands, noName, value?_eq fits member, nameless,
      State.report_eq_after]

end Names

/-! ## Loops -/

section Rounds

variable {α β : Type} {size : Nat} {round : α → State → Except Fault (Round α β × State)}
  {a a' : α} {b : β} {s s' : State}

theorem rounds_done (last : round a s = .ok (.done b, s')) :
    rounds size round a s = .ok (b, s') := by
  rw [rounds, last]

theorem rounds_again (next : round a s = .ok (.again a', s'))
    (further : s.place < s'.place ∧ s'.place ≤ size) :
    rounds size round a s = rounds size round a' s' := by
  rw [rounds, next]
  exact if_pos further

/-- A loop that comes to its end: each round but the last takes a token, and there are tokens to
take. -/
inductive Loop (size : Nat) (round : α → State → Except Fault (Round α β × State)) :
    α → State → β → State → Prop where
  | last {a : α} {b : β} {s s' : State} : round a s = .ok (.done b, s') → Loop size round a s b s'
  | again {a a' : α} {b : β} {s s' s'' : State} : round a s = .ok (.again a', s') →
      s.place < s'.place → s'.place ≤ size → Loop size round a' s' b s'' →
        Loop size round a s b s''

/-- Rounds are repeated only as long as each of them takes a token. -/
theorem rounds_eq_ok_iff : rounds size round a s = .ok (b, s') ↔ Loop size round a s b s' := by
  constructor
  · intro ends
    fun_induction rounds size round a s with
    | case1 a s fault failed => cases ends
    | case2 a s b' s'' done =>
        cases ends
        exact .last done
    | case3 a s a' s'' next further ih => exact .again next further.1 further.2 (ih ends)
    | case4 a s a' s'' next idle => cases ends
  · intro loop
    induction loop with
    | last done => exact rounds_done done
    | again next further within _ ih => rw [rounds_again next ⟨further, within⟩, ih]

end Rounds

/-! ## Values and attributes -/

section Items

variable {text : List Char} {ts : List Token} (fits : Fits text ts) {s : State}

include fits

theorem valueAhead_eq {rest : List Token} (stands : ahead ts s = rest) :
    valueAhead text ts s = .ok ((Head.takeValue rest).1.map Prod.snd) := by
  rw [valueAhead, getElem?_place stands]
  cases rest with
  | nil => rfl
  | cons t rest =>
      have value := value?_eq fits (mem_of_ahead stands List.mem_cons_self)
      cases literal : t.value? with
      | none => simp [Head.takeValue, literal, value]
      | some v =>
          have word := (Token.isLiteral_iff.2 ⟨v, literal⟩).endsStatement_eq_false
          simp [Head.takeValue, literal, value, word]

/-- An attribute is read as from the words of its statement. -/
theorem addAttribute_eq {rest : List Token} (stands : ahead ts s = rest) {e : Token}
    (equals : last ts s = .ok e) {nameSpan : Span} {chars : List Char}
    (place : cut text nameSpan = .ok chars) (h : Head) (space : Option String) :
    let added := h.addItem (.attribute space (attributeName space chars) nameSpan e
      (Head.takeValue rest).1)
    ∃ used, rest = used ++ (Head.takeValue rest).2 ∧
      addAttribute text ts h space nameSpan s = .ok (added.1, s.after used added.2) := by
  intro added
  have value := valueAhead_eq fits stands
  -- Without a value nothing is taken, and the equals sign is still the last token.
  have missing (none : Head.takeValue rest = (.none, rest)) :
      rest = [] ++ (Head.takeValue rest).2 ∧
        addAttribute text ts h space nameSpan s = .ok (added.1, s.after [] added.2) := by
    rw [none] at value
    have atEquals (ps : List Problem) : last ts (s.after [] ps) = .ok e := equals
    refine ⟨by rw [none]; rfl, ?_⟩
    simp [added, none, addAttribute, attributeValue, place, value, equals, atEquals, Head.addItem,
      State.report_eq_after]
  rcases rest with _ | ⟨t, rest⟩
  · exact ⟨[], missing rfl⟩
  · cases literal : t.value? with
    | none => exact ⟨[], missing (by simp [Head.takeValue, literal])⟩
    | some v =>
        have taken : s.take 1 = s.after [t] [] := s.take_eq_after [t]
        have atValue : last ts (s.after [t] []) = .ok t := last_after [] stands []
        have found := Head.takeValue_of_value? literal rest
        rw [found] at value
        refine ⟨[t], by rw [found]; rfl, ?_⟩
        simp [added, found, addAttribute, attributeValue, place, value, taken, atValue,
          Head.addItem]

/-- A token that begins no attribute is read as from the words of its statement. -/
theorem addWord_eq {t : Token} (member : t ∈ ts) (h : Head) :
    addWord text h t s =
      .ok ((h.addItem (.word t)).1, s.after [] (h.addItem (.word t)).2) := by
  rw [addWord, value?_eq fits member, ok_bind]
  cases literal : t.value? with
  | some v => simp [Head.addItem, literal, State.report_eq_after]
  | none =>
      cases kind : t.kind <;>
        simp [Head.addItem, literal, kind, word_eq fits member, State.report_eq_after]

/-- The name of an attribute with a namespace begins behind the first colon of its place. -/
theorem attributeName_spaced {t : Token} (member : t ∈ ts) (name : t.isName) (c n : Token) :
    attributeName (some t.word) (t.text ++ (c.gap ++ c.text ++ n.gap ++ n.text)) =
      Head.spacedName c n := by
  have inner := (fits.lexed member).ne_colon (Token.kind_of_isName name)
  rw [attributeName, Option.isSome_some, if_pos rfl, List.dropWhile_append_of_pos inner]
  rfl

section Item

variable {t : Token} {more : List Token} (stands : ahead ts s = t :: more)

include stands

/-- Where no attribute begins, one token is read. -/
theorem item_of_word (taken : Head.takeItem t more = (.word t, more)) (h : Head) :
    item text ts h t s = addWord text h t (s.after [t] []) := by
  have one : s.take 1 = s.after [t] [] := s.take_eq_after [t]
  have named := nameAhead_eq fits stands 0
  obtain ⟨spaced, space, opens⟩ := spaceAhead_eq fits stands
  cases name : t.isName with
  | false => simp [item, named, name, one]
  | true =>
      -- Otherwise the tokens ahead would have been taken for an attribute.
      have noEquals : kindAhead ts s 1 .equals = false := by
        rw [kindAhead_eq stands, Bool.eq_false_iff]
        intro isEquals
        rcases more with _ | ⟨e, r⟩
        · simp at isEquals
        · have kind : e.kind = .equals := by simpa using isEquals
          simp [Head.takeItem, name, kind] at taken
      have noAttribute : (spaced && kindAhead ts s 3 .equals) = false := by
        rw [kindAhead_eq stands, Bool.eq_false_iff]
        intro both
        obtain ⟨isSpaced, isEquals⟩ := Bool.and_eq_true_iff.1 both
        have opened := opens.1 isSpaced
        rcases more with _ | ⟨c, _ | ⟨n, _ | ⟨e, r⟩⟩⟩
        · exact opened
        · exact opened
        · simp at isEquals
        · have kind : e.kind = .equals := by simpa using isEquals
          simp [Head.takeItem, name, opened.1, opened.2, kind] at taken
      simp only [item, named, List.getElem?_cons_zero, Option.any_some, name, ok_bind, if_true,
        noEquals, space, noAttribute, Bool.false_eq_true, if_false, one]

/-- The first item of the tokens ahead is read as from the words of a statement. -/
theorem item_eq (h : Head) :
    let added := h.addItem (Head.takeItem t more).1
    ∃ used, t :: more = used ++ (Head.takeItem t more).2 ∧ used ≠ [] ∧
      item text ts h t s = .ok (added.1, s.after used added.2) := by
  intro added
  have member : t ∈ ts := mem_of_ahead stands List.mem_cons_self
  have named := nameAhead_eq fits stands 0
  rcases Head.takeItem_cases t more with
    ⟨e, r, rfl, name, isEquals, taken⟩ |
    ⟨c, n, e, r, rfl, name, isColon, second, isEquals, taken⟩ | taken
  · have two : s.take 2 = s.after [t, e] [] := s.take_eq_after [t, e]
    have behind : ahead ts (s.after [t, e] []) = r := ahead_after stands []
    have equals : last ts (s.after [t, e] []) = .ok e := last_after [t] stands []
    obtain ⟨used, spelled, read⟩ := addAttribute_eq fits behind equals (fits.token member) h none
    rw [State.after_after] at read
    refine ⟨[t, e] ++ used, by rw [taken, List.append_assoc, ← spelled]; rfl, by simp, ?_⟩
    simp only [item, named, List.getElem?_cons_zero, Option.any_some, name, ok_bind, if_true,
      kindAhead_eq stands, List.getElem?_cons_succ, isEquals, beq_self_eq_true, two, read, added,
      taken]
    rfl
  · have four : s.take 4 = s.after [t, c, n, e] [] := s.take_eq_after [t, c, n, e]
    have behind : ahead ts (s.after [t, c, n, e] []) = r := ahead_after stands []
    have equals : last ts (s.after [t, c, n, e] []) = .ok e := last_after [t, c, n] stands []
    have third : tokenAt ts (s.place + 2) = .ok n := tokenAt_eq stands rfl
    have row : [t, c, n] <:+: ts :=
      isInfix_ahead (show ahead ts s = [t, c, n] ++ e :: r from stands)
    obtain ⟨spaced, space, opens⟩ := spaceAhead_eq fits stands
    obtain rfl : spaced = true := opens.2 ⟨isColon, second⟩
    obtain ⟨used, rest, read⟩ := addAttribute_eq fits behind equals (fits.row row) h (some t.word)
    rw [State.after_after, attributeName_spaced fits member name c n] at read
    refine ⟨[t, c, n, e] ++ used, by rw [taken, List.append_assoc, ← rest]; rfl, by simp, ?_⟩
    simp [item, named, name, kindAhead_eq stands, isColon, space, isEquals, third,
      word_eq fits member, four, read, added, taken]
  · refine ⟨[t], by rw [taken]; rfl, by simp, ?_⟩
    rw [item_of_word fits stands taken, addWord_eq fits member, State.after_after]
    simp [added, taken]

end Item

/-- **The loop over a tag** reads the words of its statement. -/
theorem rounds_item {ws more : List Token} (stands : ahead ts s = ws ++ more) (words : Words ws)
    (ends : EndsWords more) (h : Head) :
    let added := h.addItems (Head.items ws)
    rounds ts.length (itemRound text ts) h s = .ok (added.1, s.after ws added.2) := by
  intro added
  induction ws using Head.items.induct generalizing s h with
  | case1 =>
      have last : itemRound text ts h s = .ok (.done h, s) := by
        rw [itemRound, getElem?_place stands, List.nil_append]
        cases first : more.head? with
        | none => rfl
        | some t => simp [ends t first]
      rw [rounds_done last]
      simp [added, Head.items_nil, Head.addItems]
  | case2 t rest ih =>
      rw [List.cons_append] at stands
      obtain ⟨used, spelled, nonempty, read⟩ := item_eq fits stands h
      rw [Head.takeItem_append ends] at spelled read
      rw [← List.cons_append, ← List.append_assoc] at spelled
      have spelled := List.append_cancel_right spelled
      obtain ⟨word, -⟩ := Statement.words_cons.1 words
      have next : itemRound text ts h s =
          .ok (.again (h.addItem (Head.takeItem t rest).1).1,
            s.after used (h.addItem (Head.takeItem t rest).1).2) := by
        simp [itemRound, getElem?_place stands, word, read]
      have whole : ahead ts s = used ++ ((Head.takeItem t rest).2 ++ more) := by
        rw [stands, ← List.append_assoc, ← spelled, List.cons_append]
      have later : Words (Head.takeItem t rest).2 := by
        intro w member
        exact words w (by rw [spelled]; exact List.mem_append_right _ member)
      rw [rounds_again next (further whole nonempty _), ih (ahead_after whole _) later]
      have items : Head.items (t :: rest) =
          (Head.takeItem t rest).1 :: Head.items (Head.takeItem t rest).2 := by
        rw [Head.items]
      simp [added, items, Head.addItems, ← spelled]

end Items

/-! ## Tokens that are left out -/

section Skips

variable {ts : List Token} {s : State}

/-- **The loop over a block** ends behind its closing brace, or at the end of the text. -/
theorem rounds_block {rest : List Token} (stands : ahead ts s = rest) (level : Nat) :
    ∃ c used left, rest = used ++ left ∧ Ends level rest c left ∧
      rounds ts.length (blockRound ts) (level + 1) s = .ok (c.map Token.stop, s.after used []) := by
  induction rest generalizing s level with
  | nil =>
      have last : blockRound ts (level + 1) s = .ok (.done none, s) := by
        rw [blockRound, getElem?_place stands]
        rfl
      exact ⟨none, [], [], rfl, .open (Nat.zero_le _), by rw [rounds_done last]; simp⟩
  | cons t rest ih =>
      have one : s.take 1 = s.after [t] [] := s.take_eq_after [t]
      have whole : ahead ts s = [t] ++ rest := stands
      -- Another round, which leaves `level` blocks open.
      have again {n : Nat} (next : blockRound ts (level + 1) s =
          .ok (.again (n + 1), s.after [t] []))
          (ends : ∀ {c left}, Ends n rest c left → Ends level (t :: rest) c left) :
          ∃ c used left, t :: rest = used ++ left ∧ Ends level (t :: rest) c left ∧
            rounds ts.length (blockRound ts) (level + 1) s =
              .ok (c.map Token.stop, s.after used []) := by
        obtain ⟨c, used, left, rfl, behind, read⟩ := ih (ahead_after whole []) n
        refine ⟨c, t :: used, left, rfl, ends behind, ?_⟩
        rw [rounds_again next (further whole (by simp) []), read]
        simp
      cases kind : t.kind with
      | leftBrace =>
          exact again (by simp [blockRound, getElem?_place stands, kind, one]) (.leftBrace kind)
      | rightBrace =>
          cases level with
          | zero =>
              refine ⟨some t, [t], rest, rfl, .here kind rest, rounds_done ?_⟩
              simp [blockRound, getElem?_place stands, kind, one, down]
          | succ level =>
              refine again ?_ (.rightBrace kind)
              simp [blockRound, getElem?_place stands, kind, one, down]
      | _ =>
          refine again (n := level) (by simp [blockRound, getElem?_place stands, kind, one])
            (.of_outer_eq ?_)
          simp [Statement.Suffix.ofTokens_cons, Statement.Suffix.cons, kind]

/-- A block is skipped up to its closing brace. -/
theorem skipBlock_eq {o : Token} {inside : List Token} (stands : ahead ts s = o :: inside) :
    ∃ c used left, inside = used ++ left ∧ Ends 0 inside c left ∧
      skipBlock ts s = .ok (c.map Token.stop, s.after (o :: used) (unclosed o c)) := by
  have one : s.take 1 = s.after [o] [] := s.take_eq_after [o]
  obtain ⟨c, used, left, spelled, ends, read⟩ :=
    rounds_block (ahead_after (show ahead ts s = [o] ++ inside from stands) []) 0
  refine ⟨c, used, left, spelled, ends, ?_⟩
  rw [skipBlock, getElem?_place stands]
  cases c <;> simp [one, read, unclosed, State.report_eq_after]

/-- The loop over a statement takes its words. -/
theorem rounds_words {ws more : List Token} (stands : ahead ts s = ws ++ more) (words : Words ws) :
    rounds ts.length (statementRound ts) () s =
      rounds ts.length (statementRound ts) () (s.after ws []) := by
  induction ws generalizing s with
  | nil => rw [State.after_nil]
  | cons w ws ih =>
      obtain ⟨word, words⟩ := Statement.words_cons.1 words
      have whole : ahead ts s = [w] ++ (ws ++ more) := stands
      have next : statementRound ts () s = .ok (.again (), s.after [w] []) := by
        rw [← s.take_eq_after [w]]
        rw [List.cons_append] at stands
        cases kind : w.kind <;> simp [Token.endsStatement, kind] at word <;>
          simp [statementRound, getElem?_place stands, kind]
      rw [rounds_again next (further whole (by simp) []), ih (ahead_after whole []) words]
      simp

/-- A statement without a block is skipped up to its end. -/
theorem skipStatement_line {ws more : List Token} (stands : ahead ts s = ws ++ more)
    (words : Words ws) (ends : EndsWords more) (noBlock : ∀ t ∈ more.head?, t.kind ≠ .leftBrace) :
    skipStatement ts s = .ok (s.after ws []) := by
  have last : statementRound ts () (s.after ws []) = .ok (.done (), s.after ws []) := by
    rw [statementRound, getElem?_place (ahead_after stands [])]
    cases first : more.head? with
    | none => rfl
    | some t =>
        have isEnd := ends t first
        have noBrace := noBlock t first
        cases kind : t.kind <;> simp [Token.endsStatement, kind] at isEnd noBrace ⊢
  rw [skipStatement, rounds_words stands words, rounds_done last]
  rfl

/-- A statement with a block is skipped with it. -/
theorem skipStatement_block {ws inside : List Token} {o : Token}
    (stands : ahead ts s = ws ++ o :: inside) (words : Words ws) (opening : o.kind = .leftBrace) :
    ∃ c used left, inside = used ++ left ∧ Ends 0 inside c left ∧
      skipStatement ts s = .ok (s.after (ws ++ o :: used) (unclosed o c)) := by
  have behind := ahead_after stands []
  obtain ⟨c, used, left, spelled, ends, skipped⟩ := skipBlock_eq behind
  have last : statementRound ts () (s.after ws []) =
      .ok (.done (), s.after (ws ++ o :: used) (unclosed o c)) := by
    rw [statementRound, getElem?_place behind]
    simp [opening, skipped]
  refine ⟨c, used, left, spelled, ends, ?_⟩
  rw [skipStatement, rounds_words stands words, rounds_done last]
  rfl

end Skips

/-! ## Tags -/

/-- The byte offset behind the last token, where blocks end that stay open. -/
def endOf (ts : List Token) : Nat :=
  (ts.getLast?.map Token.stop).getD 0

/-- The content of a block is read up to its closing brace, or to the end of the text. -/
def ReadsBody (text : List Char) (ts inside : List Token) : Prop :=
  ∀ {s : State} (o : Token), ahead ts s = inside →
    let read := tagsOf (endOf ts) s.depth (Statement.Suffix.ofTokens inside).here
    ∃ c used left, inside = used ++ (c.toList ++ left) ∧ Ends 0 inside c left ∧
      children text ts (some o) s = .ok (read.1, s.after used (read.2 ++ unclosed o c))

section Tags

variable {text : List Char} {ts : List Token} (fits : Fits text ts) {s : State}

/-- The end of a block is found behind its content. -/
theorem blockEnd_eq {o : Token} {used inside left : List Token} {c : Option Token}
    (stands : ahead ts s = o :: (used ++ (c.toList ++ left))) (ends : Ends 0 inside c left)
    (ps : List Problem) :
    blockEnd ts o (s.after (o :: used) ps) =
      ((c.map Token.stop).getD (max o.stop (endOf ts)),
        s.after (o :: (used ++ c.toList)) ps) := by
  have behind : ahead ts (s.after (o :: used) ps) = c.toList ++ left := ahead_after stands ps
  rw [blockEnd, getElem?_place behind]
  cases c with
  | some t =>
      have kind := ends.kind t rfl
      have one := (s.after (o :: used) ps).take_eq_after [t]
      rw [State.after_after] at one
      simpa [kind, Option.filter] using one
  | none =>
      -- The text ends here, so the last token that was taken is its last token.
      obtain rfl := ends.left_eq_nil
      have all : ahead ts s = o :: used := by simpa using stands
      have nonempty : ts ≠ [] := by
        rintro rfl
        simp [ahead] at all
      have last := List.getLast?_eq_some_getLast nonempty
      have atLast : ts[(s.after (o :: used) ps).place - 1]? = some (ts.getLast nonempty) := by
        rw [place_after all (by simp) ps, ← List.getLast?_eq_getElem?, last]
      simp only [Option.toList_none, List.append_nil, List.head?_nil, Option.filter_none, atLast,
        Option.map_some, Option.getD_some, Option.map_none, Option.getD_none, endOf, last]

/-- Without a block a tag ends with its words. -/
theorem block_of_line {rest : List Token} (stands : ahead ts s = rest)
    (noBlock : ∀ t ∈ rest.head?, t.kind ≠ .leftBrace) (start : Nat) (h : Head) :
    block text ts start h s = .ok (h.toTag start h.stop [], s) := by
  have noBrace : kindAhead ts s 0 .leftBrace = false := by
    rw [kindAhead_eq stands, ← List.head?_eq_getElem?]
    cases next : rest.head? with
    | none => rfl
    | some t => simpa using noBlock t next
  rw [block]
  simp [noBrace]

/-- A block is read up to its closing brace, if its content is. -/
theorem block_of_brace {o : Token} {inside : List Token} (stands : ahead ts s = o :: inside)
    (opening : o.kind = .leftBrace) (body : ReadsBody text ts inside) {first : Token}
    {ws : List Token} {h : Head} {ps : List Problem}
    (read : Head.read? (first :: ws) = some (h, ps)) :
    ∃ c used left t qs, inside = used ++ left ∧ Ends 0 inside c left ∧
      tagsOf (endOf ts) s.depth [.block (first :: ws) o (Statement.Suffix.ofTokens inside).here c] =
        ([t], ps ++ qs) ∧
      block text ts first.start h s = .ok (t, s.after (o :: used) qs) := by
  have brace : kindAhead ts s 0 .leftBrace = true := by
    rw [kindAhead_eq stands]
    simp [opening]
  have atBrace : tokenAt ts s.place = .ok o :=
    tokenAt_eq stands (show (o :: inside)[0]? = some o from rfl)
  have whole : ahead ts s = [o] ++ inside := stands
  by_cases shallow : s.depth < maxDepth
  · have entered : s.place < s.enter.place ∧ s.enter.place ≤ ts.length :=
      further whole (by simp) []
    have inner : s.enter.depth = s.depth + 1 := rfl
    obtain ⟨c, used, left, spelled, ends, content⟩ := body o (s := s.enter) (ahead_after whole [])
    rw [inner] at content
    generalize given : tagsOf (endOf ts) (s.depth + 1) (Statement.Suffix.ofTokens inside).here = p
      at content
    have stop := blockEnd_eq (by rw [stands, spelled]) ends (p.2 ++ unclosed o c)
    refine ⟨c, used ++ c.toList, left,
      h.toTag first.start ((c.map Token.stop).getD (max o.stop (endOf ts))) p.1,
      p.2 ++ unclosed o c, by simp [spelled], ends, by simp [tagsOf, read, shallow, given], ?_⟩
    rw [block]
    simp only [brace, if_true, atBrace, ok_bind, if_pos shallow, dif_pos entered, content,
      State.after_depth, inner, down, Nat.succ_ne_zero, if_false, Nat.add_sub_cancel,
      s.leave_enter used (p.2 ++ unclosed o c) o, stop]
  · obtain ⟨c, used, left, spelled, ends, skipped⟩ := skipBlock_eq
      (show ahead ts (s.after [] [⟨o.span, .nestingTooDeep⟩]) = o :: inside from stands)
    rw [State.after_after] at skipped
    refine ⟨c, used, left, h.toTag first.start ((c.map Token.stop).getD o.stop) [],
      ⟨o.span, .nestingTooDeep⟩ :: unclosed o c, spelled, ends,
      by simp [tagsOf, read, shallow], ?_⟩
    rw [block]
    simp only [brace, if_true, atBrace, ok_bind, if_neg shallow, State.report_eq_after, skipped]
    rfl

/-- Each statement that is read takes a token, and there are tokens to take. -/
theorem children_eq_ok_iff {t : Token} {more : List Token} (stands : ahead ts s = t :: more)
    {opening : Option Token} (goesOn : (t.kind == .rightBrace && opening.isSome) = false)
    {tags : List Tag} {s'' : State} :
    children text ts opening s = .ok (tags, s'') ↔ ∃ tag? s' behind,
      statement text ts t s = .ok (tag?, s') ∧ s.place < s'.place ∧ s'.place ≤ ts.length ∧
        children text ts opening s' = .ok (behind, s'') ∧ tags = tag?.toList ++ behind := by
  rw [children, getElem?_place stands]
  simp only [List.head?_cons, goesOn, Bool.false_eq_true, if_false]
  cases read : statement text ts t s with
  | error fault => simp [bind, Except.bind]
  | ok found =>
      obtain ⟨tag?, s'⟩ := found
      by_cases further : s.place < s'.place ∧ s'.place ≤ ts.length
      · simp only [ok_bind, dif_pos further]
        cases later : children text ts opening s' with
        | error fault =>
            constructor
            · intro ends
              cases ends
            · rintro ⟨_, _, _, same, -, -, behind, -⟩
              cases same
              cases later.symm.trans behind
        | ok found =>
            obtain ⟨behind, last⟩ := found
            constructor
            · intro ends
              cases ends
              exact ⟨tag?, s', behind, rfl, further.1, further.2, later, rfl⟩
            · rintro ⟨_, _, _, same, -, -, behind, rfl⟩
              cases same
              cases later.symm.trans behind
              rfl
      · simp only [ok_bind, dif_neg further]
        constructor
        · intro ends
          cases ends
        · rintro ⟨_, _, _, same, takes, within, -⟩
          cases same
          exact absurd ⟨takes, within⟩ further

/-- One more statement is read by `children`. -/
theorem children_cons {t : Token} {more : List Token} (stands : ahead ts s = t :: more)
    {opening : Option Token} (goesOn : (t.kind == .rightBrace && opening.isSome) = false)
    {used left : List Token} (spelled : t :: more = used ++ left) (nonempty : used ≠ [])
    {tag? : Option Tag} {ps : List Problem}
    (read : statement text ts t s = .ok (tag?, s.after used ps)) :
    children text ts opening s = (do
      let (tags, s') ← children text ts opening (s.after used ps)
      .ok (tag?.toList ++ tags, s')) := by
  rw [children, getElem?_place stands]
  simp only [List.head?_cons, goesOn, Bool.false_eq_true, if_false, read, ok_bind,
    dif_pos (further (stands.trans spelled) nonempty ps)]

include fits

/-- A statement that begins with neither a name nor a value gives no tag. -/
theorem tag_of_none {first : Token} {more : List Token} (stands : ahead ts s = first :: more)
    (nameless : Head.ofWords? (first :: more) = none) {s' : State}
    (skipped : skipStatement ts (s.after [] [⟨first.span, .expectedTagName⟩]) = .ok s') :
    tag text ts s = .ok (none, s') := by
  rw [tag, getElem?_place stands]
  simp [head_of_none fits stands nameless, skipped]

section Words

variable {first : Token} {ws more : List Token} (stands : ahead ts s = first :: (ws ++ more))
  (ends : EndsWords more)

include stands ends

/-- The words of a statement are read by the head of its tag and the loop behind it. -/
theorem exists_head (words : Words (first :: ws)) {h : Head} {ps : List Problem}
    (read : Head.read? (first :: ws) = some (h, ps)) :
    ∃ h₀ s', head text ts first s = .ok (some h₀, s') ∧
      rounds ts.length (itemRound text ts) h₀ s' = .ok (h, s.after (first :: ws) ps) := by
  obtain ⟨⟨h₀, rest⟩, begun, added⟩ := Option.map_eq_some_iff.1 read
  have begun' : Head.ofWords? (first :: (ws ++ more)) = some (h₀, rest ++ more) := by
    rw [Head.ofWords?_append ends, begun]
    rfl
  obtain ⟨used, spelled, -, named⟩ := head_of_some fits stands begun'
  have spelled' : first :: ws = used ++ rest := by
    have whole : (first :: ws) ++ more = (used ++ rest) ++ more := by
      rw [List.cons_append, spelled, List.append_assoc]
    exact List.append_cancel_right whole
  have behind : ahead ts (s.after used []) = rest ++ more :=
    ahead_after (by rw [stands, spelled]) []
  have inner : Words rest := fun w member => words w (by simp [spelled', member])
  refine ⟨h₀, _, named, ?_⟩
  rw [rounds_item fits behind inner ends]
  simp [show h₀.addItems (Head.items rest) = (h, ps) from added, spelled']

end Words

/-- Behind its words a tag is read on by `block`. -/
theorem tag_of_some {first : Token} {ws more : List Token}
    (stands : ahead ts s = first :: (ws ++ more)) (ends : EndsWords more)
    (words : Words (first :: ws)) {h : Head} {ps : List Problem}
    (read : Head.read? (first :: ws) = some (h, ps)) {t : Tag} {s' : State}
    (behind : block text ts first.start h (s.after (first :: ws) ps) = .ok (t, s')) :
    tag text ts s = .ok (some t, s') := by
  obtain ⟨h₀, s₀, named, items⟩ := exists_head fits stands ends words read
  have whole : ahead ts s = (first :: ws) ++ more := stands
  rw [tag, getElem?_place stands]
  simp only [List.head?_cons, named, ok_bind, items, dif_pos (further whole (by simp) ps), behind]

/-- A statement without a block is read. -/
theorem tag_line {first : Token} {ws more : List Token}
    (stands : ahead ts s = first :: (ws ++ more)) (words : Words (first :: ws))
    (ends : EndsWords more) (noBlock : ∀ t ∈ more.head?, t.kind ≠ .leftBrace) :
    let read := tagsOf (endOf ts) s.depth [.line (first :: ws)]
    ∃ tag?, tag text ts s = .ok (tag?, s.after (first :: ws) read.2) ∧ tag?.toList = read.1 := by
  intro given
  have whole (ps : List Problem) : ahead ts (s.after [] ps) = (first :: ws) ++ more := stands
  cases read : Head.read? (first :: ws) with
  | none =>
      have skipped := skipStatement_line (whole [⟨first.span, .expectedTagName⟩]) words ends noBlock
      refine ⟨none, ?_, by simp [given, tagsOf, read]⟩
      rw [tag_of_none fits stands (Head.ofWords?_append_none ends read) skipped]
      simp [given, tagsOf, read]
  | some p =>
      have behind : ahead ts (s.after (first :: ws) p.2) = more := ahead_after (whole []) p.2
      have unblocked : block text ts first.start p.1 (s.after (first :: ws) p.2) = .ok _ :=
        block_of_line behind noBlock first.start p.1
      refine ⟨some (p.1.toTag first.start p.1.stop []), ?_, by simp [given, tagsOf, read]⟩
      rw [tag_of_some fits stands ends words read unblocked]
      simp [given, tagsOf, read]

/-- A statement with a block is read, if its content is. -/
theorem tag_block {ws inside : List Token} {o : Token} (stands : ahead ts s = ws ++ o :: inside)
    (words : Words ws) (opening : o.kind = .leftBrace) (body : ReadsBody text ts inside) :
    ∃ c used left tag?, inside = used ++ left ∧ Ends 0 inside c left ∧
      let read := tagsOf (endOf ts) s.depth [.block ws o (Statement.Suffix.ofTokens inside).here c]
      tag text ts s = .ok (tag?, s.after (ws ++ o :: used) read.2) ∧ tag?.toList = read.1 := by
  have ends : EndsWords (o :: inside) := by
    rintro t ⟨⟩
    simp [Token.endsStatement, opening]
  -- A statement that begins with no tag is skipped with its block.
  have skip {first : Token} {more : List Token} (begins : ws ++ o :: inside = first :: more)
      (nameless : Head.ofWords? (first :: more) = none) :
      ∃ c used left, inside = used ++ left ∧ Ends 0 inside c left ∧ tag text ts s =
        .ok (none, s.after (ws ++ o :: used) (⟨first.span, .expectedTagName⟩ :: unclosed o c)) := by
    have here : ahead ts (s.after [] [⟨first.span, .expectedTagName⟩]) = ws ++ o :: inside := stands
    obtain ⟨c, used, left, spelled, ends', skipped⟩ := skipStatement_block here words opening
    refine ⟨c, used, left, spelled, ends', ?_⟩
    rw [tag_of_none fits (stands.trans begins) nameless skipped]
    simp
  cases ws with
  | nil =>
      have nameless : Head.ofWords? (o :: inside) = none := by
        simp [Head.ofWords?, Token.isName, Token.value?, Token.literal?, opening]
      obtain ⟨c, used, left, spelled, ends', skipped⟩ := skip rfl nameless
      exact ⟨c, used, left, none, spelled, ends', by simp [skipped, tagsOf], by simp [tagsOf]⟩
  | cons first ws =>
      cases read : Head.read? (first :: ws) with
      | none =>
          obtain ⟨c, used, left, spelled, ends', skipped⟩ :=
            skip rfl (Head.ofWords?_append_none ends read)
          exact ⟨c, used, left, none, spelled, ends', by simp [skipped, tagsOf, read],
            by simp [tagsOf, read]⟩
      | some p =>
          obtain ⟨c, used, left, t, qs, spelled, ends', given, behind⟩ :=
            block_of_brace (ahead_after stands p.2) opening body read
          rw [State.after_depth] at given
          refine ⟨c, used, left, some t, spelled, ends', ?_, by rw [given]; rfl⟩
          rw [tag_of_some fits stands ends words read behind, State.after_after, given]

/-- A tag takes the first statement of the tokens ahead. -/
theorem tag_eq {t : Token} {more : List Token} (stands : ahead ts s = t :: more)
    (inside : t.kind ≠ .rightBrace) (separator : ¬ t.IsSeparator)
    (body : ∀ us : List Token, us.length < (t :: more).length → ReadsBody text ts us) :
    ∃ st used left tag?, t :: more = used ++ left ∧ used ≠ [] ∧
      Statement.Suffix.ofTokens (t :: more) =
        ⟨st :: (Statement.Suffix.ofTokens left).here, (Statement.Suffix.ofTokens left).outer⟩ ∧
      let read := tagsOf (endOf ts) s.depth [st]
      tag text ts s = .ok (tag?, s.after used read.2) ∧ tag?.toList = read.1 := by
  obtain ⟨ws, rest, spelled, words, ends⟩ := exists_words (t :: more)
  by_cases block : ∃ o us, rest = o :: us ∧ o.kind = .leftBrace
  · obtain ⟨o, us, rfl, opening⟩ := block
    have shorter : us.length < (t :: more).length := by
      rw [spelled, List.length_append, List.length_cons]
      omega
    obtain ⟨c, used, left, tag?, rfl, ends', read⟩ :=
      tag_block fits (stands.trans spelled) words opening (body us shorter)
    refine ⟨_, ws ++ o :: used, left, tag?, by simp [spelled], by simp, ?_, read⟩
    rw [spelled, Statement.Suffix.ofTokens_block words opening ends']
  · have noBlock : ∀ u ∈ rest.head?, u.kind ≠ .leftBrace := by
      intro u first opening
      obtain ⟨us, rfl⟩ := List.head?_eq_some_iff.1 first
      exact block ⟨u, us, rfl, opening⟩
    cases ws with
    | nil =>
        -- A token that ends a statement is a separator or a brace.
        obtain rfl : t :: more = rest := spelled
        have last := ends t rfl
        have noBrace := noBlock t rfl
        simp only [Token.IsSeparator, not_or] at separator
        cases kind : t.kind <;> simp_all [Token.endsStatement]
    | cons first ws =>
        obtain ⟨rfl, rfl⟩ := List.cons.inj spelled
        obtain ⟨tag?, read⟩ := tag_line fits stands words ends noBlock
        refine ⟨_, t :: ws, rest, tag?, rfl, by simp, ?_, read⟩
        exact Statement.Suffix.ofTokens_line words (by simp) ends noBlock

/-- **The first statement of the tokens ahead** is read as it is grouped, whatever stands
behind it. -/
theorem statement_eq {t : Token} {more : List Token} (stands : ahead ts s = t :: more)
    (inside : t.kind ≠ .rightBrace)
    (body : ∀ us : List Token, us.length < (t :: more).length → ReadsBody text ts us) :
    ∃ st used left tag?, t :: more = used ++ left ∧ used ≠ [] ∧
      Statement.Suffix.ofTokens (t :: more) =
        ⟨st :: (Statement.Suffix.ofTokens left).here, (Statement.Suffix.ofTokens left).outer⟩ ∧
      let read := tagsOf (endOf ts) s.depth [st]
      statement text ts t s = .ok (tag?, s.after used read.2) ∧ tag?.toList = read.1 := by
  by_cases separator : t.IsSeparator
  · have one : s.take 1 = s.after [t] [] := s.take_eq_after [t]
    refine ⟨.separator t, [t], more, none, rfl, by simp, ?_, ?_, by simp [tagsOf]⟩
    · rw [Statement.Suffix.ofTokens_cons, Statement.Suffix.cons_of_separator separator]
    · rw [statement, one]
      rcases separator with kind | kind <;> simp [kind, tagsOf]
  · have begins : statement text ts t s = tag text ts s := by
      rw [statement]
      cases kind : t.kind <;> simp_all [Token.IsSeparator]
    rw [begins]
    exact tag_eq fits stands inside separator body

omit fits in
theorem length_left_lt {rest used left : List Token} (spelled : rest = used ++ left)
    (nonempty : used ≠ []) : left.length < rest.length := by
  have positive := List.length_pos_iff.2 nonempty
  rw [spelled, List.length_append]
  omega

/-- **The content of a block** is read. -/
theorem readsBody (inside : List Token) : ReadsBody text ts inside := by
  induction length : inside.length using Nat.strong_induction_on generalizing inside with
  | _ n ih =>
    subst length
    intro s o stands given
    cases inside with
    | nil =>
        refine ⟨none, [], [], rfl, .open (Nat.zero_le _), ?_⟩
        rw [children, getElem?_place stands]
        simp [given, Statement.Suffix.ofTokens, tagsOf, unclosed, State.report_eq_after]
    | cons t more =>
        by_cases closing : t.kind = .rightBrace
        · refine ⟨some t, [], more, rfl, .here closing more, ?_⟩
          rw [children, getElem?_place stands]
          simp [closing, given, Statement.Suffix.ofTokens_cons,
            Statement.Suffix.cons_of_rightBrace closing, tagsOf, unclosed]
        · obtain ⟨st, used, left, tag?, spelled, nonempty, groups, read, tags⟩ :=
            statement_eq fits stands closing fun us shorter => ih _ shorter us rfl
          have behind := ahead_after (stands.trans spelled) (tagsOf (endOf ts) s.depth [st]).2
          obtain ⟨c, us, rest, inner, ends, later⟩ :=
            ih _ (length_left_lt spelled nonempty) left rfl o behind
          refine ⟨c, used ++ us, rest, by rw [spelled, inner, List.append_assoc],
            .of_outer_eq (by rw [groups]) ends, ?_⟩
          have whole :=
            tagsOf_cons_append (endOf ts) s.depth st (Statement.Suffix.ofTokens left).here
          rw [children_cons stands (by simp [closing]) spelled nonempty read, later]
          simp [given, groups, whole, tags]

/-- The first statement of a text is read, also if it is a closing brace without a partner. -/
theorem statement_eq_close {t : Token} {more : List Token} (stands : ahead ts s = t :: more) :
    ∃ st used left tag?, t :: more = used ++ left ∧ used ≠ [] ∧
      (Statement.Suffix.ofTokens (t :: more)).close =
        st :: (Statement.Suffix.ofTokens left).close ∧
      let read := tagsOf (endOf ts) s.depth [st]
      statement text ts t s = .ok (tag?, s.after used read.2) ∧ tag?.toList = read.1 := by
  by_cases closing : t.kind = .rightBrace
  · have one : s.take 1 = s.after [t] [] := s.take_eq_after [t]
    refine ⟨.stray t, [t], more, none, rfl, by simp, ?_, ?_, by simp [tagsOf]⟩
    · rw [Statement.Suffix.ofTokens_cons, Statement.Suffix.cons_of_rightBrace closing]
      rfl
    · rw [statement]
      simp [closing, one, tagsOf]
  · obtain ⟨st, used, left, tag?, spelled, nonempty, groups, read⟩ :=
      statement_eq fits stands closing fun us _ => readsBody fits us
    exact ⟨st, used, left, tag?, spelled, nonempty, by rw [groups]; rfl, read⟩

/-- **The whole text** is read. -/
theorem children_eq (rest : List Token) (stands : ahead ts s = rest) :
    let read := tagsOf (endOf ts) s.depth (Statement.Suffix.ofTokens rest).close
    children text ts none s = .ok (read.1, s.after rest read.2) := by
  intro given
  induction length : rest.length using Nat.strong_induction_on generalizing rest s with
  | _ n ih =>
    subst length
    cases rest with
    | nil =>
        rw [children, getElem?_place stands]
        simp [given, Statement.Suffix.ofTokens, Statement.Suffix.close, tagsOf,
          State.report_eq_after]
    | cons t more =>
        obtain ⟨st, used, left, tag?, spelled, nonempty, groups, read, tags⟩ :=
          statement_eq_close fits stands
        have behind := ahead_after (stands.trans spelled) (tagsOf (endOf ts) s.depth [st]).2
        have whole :=
          tagsOf_cons_append (endOf ts) s.depth st (Statement.Suffix.ofTokens left).close
        rw [children_cons stands (by simp) spelled nonempty read,
          ih _ (length_left_lt spelled nonempty) left behind rfl]
        simp [given, groups, whole, tags, ← spelled]

end Tags

/-- **Reading token by token never fails.**  Whatever the text is, each round of a loop but the
last takes a token, each token that is looked up by its number exists, each place that is cut out
begins and ends between two characters, and no counter steps below zero: all this is checked on
the way, and no check ends in a fault.  The reader stops behind the last token with no block left
open, and gives the document that is read from all tokens at once. -/
theorem ofText_succeeds (text : List Char) :
    ∃ s, Descent.ofText text = .ok (Document.ofText text, s) ∧
      s.place = (Lexing.ofText text).tokens.length ∧ s.depth = 0 := by
  have read := children_eq (fits_tokens text) (s := ⟨0, 0, (Lexing.ofText text).problems⟩) _ rfl
  rw [ahead, List.drop_zero] at read
  refine ⟨_, by rw [ofText, read]; rfl, ?_, ?_⟩
  · simp
  · rfl

/-- A statement without a name, a nested block and a stray brace, and an attribute and a string that
are cut off. -/
theorem ofText_succeeds_malformed :
    let text := "= x \x7b \x7d\na \x7b b k= \x7d \x7d\nc \"d".toList
    (∃ s, Descent.ofText text = .ok (Document.ofText text, s) ∧ s.place = 15 ∧ s.depth = 0) ∧
      (Document.ofText text).problems.length = 4 := by
  intro text
  have tokens : (Lexing.ofText "= x \x7b \x7d\na \x7b b k= \x7d \x7d\nc \"d".toList).tokens.length = 15 := by cbv
  have problems : (Document.ofText "= x \x7b \x7d\na \x7b b k= \x7d \x7d\nc \"d".toList).problems.length = 4 := by
    cbv
  obtain ⟨s, read, place, depth⟩ := ofText_succeeds text
  exact ⟨⟨s, read, place.trans tokens, depth⟩, problems⟩

end PackageRecipe.Sdl.Descent
