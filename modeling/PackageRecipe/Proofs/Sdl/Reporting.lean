import PackageRecipe.Proofs.Sdl.Grammar

/-!
# What is reported

The problems of a document are those of its pieces and those of its statements, in the
order of their places.  This file says where the problems of a statement come from, and
what the order keeps.

## Main Definitions

* `Problem.Before` — the order in which problems are reported
* `Problem.OfWords`, `Problem.OfStatements` — where a problem of words and of statements
  begins, and what it quotes
* `Cause.OfToken`, `Cause.OfPiece` — the causes that are reported at a token alone, and those that
  the scanner finds

## Design Notes

Two lemmas stand for the order, so that nothing else looks into the sort: a part of the
problems that is in order already is left alone (`filter_sort`), and a list of problems
in order that agrees with the others place by place is what the sort gives (`sort_eq`).
-/

namespace PackageRecipe.Sdl

open PackageRecipe.Text

/-! ## The order of problems -/

namespace Problem

/-- The one problem begins no later than the other. -/
def Before (p q : Problem) : Prop :=
  p.span.start ≤ q.span.start

theorem sort_perm (ps : List Problem) : (sort ps).Perm ps :=
  List.mergeSort_perm _ _

theorem mem_sort {p : Problem} {ps : List Problem} : p ∈ sort ps ↔ p ∈ ps :=
  (sort_perm ps).mem_iff

theorem pairwise_sort (ps : List Problem) : (sort ps).Pairwise Before := by
  have sorted : (sort ps).Pairwise fun p q => decide (p.span.start ≤ q.span.start) := by
    apply List.pairwise_mergeSort
    · simpa using fun a b c => Nat.le_trans
    · simpa using fun a b => Nat.le_total _ _
  exact sorted.imp fun early => of_decide_eq_true early

/-- A part of the problems that is in order is found in this order. -/
theorem filter_sort {wanted : Problem → Bool} {ps : List Problem}
    (ordered : (ps.filter wanted).Pairwise Before) :
    (sort ps).filter wanted = ps.filter wanted := by
  have kept : (ps.filter wanted).Sublist (sort ps) := by
    apply List.sublist_mergeSort
    · simpa using fun a b c => Nat.le_trans
    · simpa using fun a b => Nat.le_total _ _
    · simp only [decide_eq_true_eq]
      exact ordered
    · exact List.filter_sublist
  have found : (ps.filter wanted).Sublist ((sort ps).filter wanted) := by
    simpa using kept.filter wanted
  exact (found.eq_of_length ((sort_perm ps).filter wanted).length_eq.symm).symm

/-- Problems in order are given by those that begin at each place. -/
theorem eq_of_filter_eq {ps qs : List Problem} (left : ps.Pairwise Before)
    (right : qs.Pairwise Before)
    (same : ∀ n, ps.filter (·.span.start = n) = qs.filter (·.span.start = n)) : ps = qs := by
  have absent {p : Problem} {rs : List Problem}
      (none : (p :: rs).filter (·.span.start = p.span.start) = []) : False := by
    simp at none
  -- The first of some problems in order begins no later than any problem among them.
  have least {p q : Problem} {rs us : List Problem} (ordered : (q :: us).Pairwise Before)
      (same : (p :: rs).filter (·.span.start = p.span.start) =
        (q :: us).filter (·.span.start = p.span.start)) : q.span.start ≤ p.span.start := by
    have found : p ∈ (q :: us).filter (·.span.start = p.span.start) := by
      rw [← same]
      simp
    have member : p ∈ q :: us := (List.mem_filter.1 found).1
    rcases List.mem_cons.1 member with rfl | member
    · exact Nat.le_refl _
    · exact List.rel_of_pairwise_cons ordered member
  induction ps generalizing qs with
  | nil =>
      cases qs with
      | nil => rfl
      | cons q qs => exact (absent (same q.span.start).symm).elim
  | cons p ps ih =>
      cases qs with
      | nil => exact (absent (same p.span.start)).elim
      | cons q qs =>
          have start : p.span.start = q.span.start :=
            Nat.le_antisymm (least left (same q.span.start).symm) (least right (same _))
          have here := same p.span.start
          rw [List.filter_cons_of_pos (by simp), List.filter_cons_of_pos (by simp [start])] at here
          obtain ⟨rfl, -⟩ := List.cons.inj here
          rw [ih left.of_cons right.of_cons]
          intro n
          have there := same n
          by_cases begins : p.span.start = n
          · simpa [begins] using there
          · simpa [begins] using there

/-- The order leaves those problems alone that begin at one place. -/
theorem filter_start_sort (ps : List Problem) (n : Nat) :
    (sort ps).filter (·.span.start = n) = ps.filter (·.span.start = n) := by
  apply filter_sort
  rw [List.pairwise_filter]
  refine List.pairwise_of_forall fun p q first second => ?_
  simp only [decide_eq_true_eq] at first second
  exact Nat.le_of_eq (first.trans second.symm)

/-- The sorted problems are those in order that agree with the others at each place. -/
theorem sort_eq {ps qs : List Problem} (ordered : qs.Pairwise Before)
    (same : ∀ n, qs.filter (·.span.start = n) = ps.filter (·.span.start = n)) : sort ps = qs := by
  apply eq_of_filter_eq (pairwise_sort ps) ordered
  intro n
  rw [same n, filter_start_sort]

/-- Problems up to a place and problems behind it are sorted apart. -/
theorem sort_interleave {m : Nat} {ps qs rs us : List Problem}
    (early : ∀ p ∈ ps ++ rs, p.span.start ≤ m) (late : ∀ p ∈ qs ++ us, m < p.span.start) :
    sort (ps ++ qs ++ (rs ++ us)) = sort (ps ++ rs) ++ sort (qs ++ us) := by
  have none {l : List Problem} {n : Nat} (apart : ∀ p ∈ l, p.span.start ≠ n) :
      l.filter (·.span.start = n) = [] := by
    simpa [List.filter_eq_nil_iff] using apart
  apply sort_eq
  · rw [List.pairwise_append]
    refine ⟨pairwise_sort _, pairwise_sort _, fun p left q right => ?_⟩
    exact Nat.le_of_lt (Nat.lt_of_le_of_lt (early p (mem_sort.1 left)) (late q (mem_sort.1 right)))
  · intro n
    simp only [List.filter_append, filter_start_sort]
    simp only [List.mem_append] at early late
    by_cases here : n ≤ m
    · have behind (p : Problem) (member : p ∈ qs ∨ p ∈ us) : p.span.start ≠ n := by
        have := late p member
        omega
      simp [none fun p member => behind p (.inl member),
        none fun p member => behind p (.inr member)]
    · have before (p : Problem) (member : p ∈ ps ∨ p ∈ rs) : p.span.start ≠ n := by
        have := early p member
        omega
      simp [none fun p member => before p (.inl member),
        none fun p member => before p (.inr member)]

end Problem

/-! ## The problems of words -/

/-- A problem that is raised by some words: it begins where one of them does. -/
inductive Problem.OfWords (ws : List Token) : Problem → Prop where
  | valueAfterAttribute {t : Token} : t ∈ ws → OfWords ws ⟨t.span, .valueAfterAttribute⟩
  | unexpectedIdentifier {t : Token} : t ∈ ws → t.kind = .identifier →
      OfWords ws ⟨t.span, .unexpectedIdentifier t.word⟩
  | unexpectedToken {t : Token} {a : Char} : t ∈ ws → t.kind.mark? = some a →
      OfWords ws ⟨t.span, .unexpectedToken t.word⟩
  | attributeWithoutValue {space : Option String} {name : String} {place : Span} {stop : Nat} :
      Head.NameIn ws space name place →
      OfWords ws ⟨⟨place.start, stop⟩, .attributeWithoutValue name⟩

namespace Problem.OfWords

variable {ws us : List Token} {p : Problem}

theorem mono (problem : p.OfWords us) (part : us <:+: ws) : p.OfWords ws := by
  cases problem with
  | valueAfterAttribute member => exact .valueAfterAttribute (part.subset member)
  | unexpectedIdentifier member kind => exact .unexpectedIdentifier (part.subset member) kind
  | unexpectedToken member marked => exact .unexpectedToken (part.subset member) marked
  | attributeWithoutValue named => exact .attributeWithoutValue (named.mono part)

theorem start (problem : p.OfWords ws) : ∃ t ∈ ws, p.span.start = t.start := by
  cases problem with
  | valueAfterAttribute member => exact ⟨_, member, rfl⟩
  | unexpectedIdentifier member _ => exact ⟨_, member, rfl⟩
  | unexpectedToken member _ => exact ⟨_, member, rfl⟩
  | attributeWithoutValue named =>
      cases named with
      | plain member _ => exact ⟨_, member, rfl⟩
      | spaced row _ _ _ => exact ⟨_, row.subset List.mem_cons_self, rfl⟩

end Problem.OfWords

/-- A token without a value that is no identifier is a mark, unless the scanner knows no such
token. -/
theorem Token.exists_mark {t : Token} (literal : t.value? = none)
    (identifier : t.kind ≠ .identifier) (unknown : t.kind ≠ .unknown) : ∃ a, t.kind.mark? = some a := by
  rw [Token.value?, Option.map_eq_none_iff] at literal
  cases kind : t.kind with
  | string raw _ => cases raw <;> simp [Token.literal?, kind] at literal
  | identifier => exact absurd kind identifier
  | unknown => exact absurd kind unknown
  | _ => simp_all [Token.literal?, TokenKind.mark?]

namespace Head

theorem ofWords_of_mem_addItem {t : Token} {rest : List Token} {h : Head} {p : Problem}
    (member : p ∈ (h.addItem (takeItem t rest).1).2) : p.OfWords (t :: rest) := by
  obtain ⟨used, spelled, taken⟩ := takenFrom_takeItem t rest
  have part : used <:+: t :: rest := ⟨[], _, by rw [spelled, List.nil_append]⟩
  generalize (takeItem t rest).1 = i at taken member
  refine Problem.OfWords.mono ?_ part
  cases i with
  | «attribute» space name nameSpan e value =>
      cases value with
      | some v => simp [addItem] at member
      | none =>
          obtain rfl := List.mem_singleton.1 member
          exact .attributeWithoutValue taken.nameIn
  | word t =>
      have here : t ∈ used := by
        cases taken
        exact List.mem_cons_self
      rw [addItem] at member
      cases literal : t.value? with
      | some v =>
          simp only [literal] at member
          split at member
          · simp at member
          · obtain rfl := List.mem_singleton.1 member
            exact .valueAfterAttribute here
      | none =>
          simp only [literal] at member
          split at member
          · obtain rfl := List.mem_singleton.1 member
            exact .unexpectedIdentifier here ‹_›
          · simp at member
          · obtain rfl := List.mem_singleton.1 member
            obtain ⟨a, marked⟩ := Token.exists_mark literal ‹_› ‹_›
            exact .unexpectedToken here marked

theorem ofWords_of_mem_addItems {ts : List Token} {h : Head} {p : Problem}
    (member : p ∈ (h.addItems (items ts)).2) : p.OfWords ts := by
  induction ts using items.induct generalizing h with
  | case1 => simp [items_nil, addItems] at member
  | case2 t rest ih =>
      rw [items] at member
      simp only [addItems, List.mem_append] at member
      rcases member with member | member
      · exact ofWords_of_mem_addItem member
      · exact (ih member).mono ((takeItem_suffix t rest).trans (List.suffix_cons _ _)).isInfix

/-- **The problems of a tag come from its words.** -/
theorem ofWords_of_mem_read? {ws : List Token} {h : Head} {ps : List Problem} {p : Problem}
    (read : read? ws = some (h, ps)) (member : p ∈ ps) : p.OfWords ws := by
  obtain ⟨⟨h₀, rest⟩, begun, added⟩ := Option.map_eq_some_iff.1 read
  have found : p ∈ (h₀.addItems (items rest)).2 := by
    rw [show h₀.addItems (items rest) = (h, ps) from added]
    exact member
  obtain ⟨-, used, b, rfl, -⟩ := begin_of_ofWords? begun
  exact (ofWords_of_mem_addItems found).mono ⟨used ++ [b], [], by simp⟩

end Head

/-! ## The problems of statements -/

/-- The causes that are reported at a token and quote nothing. -/
inductive Cause.OfToken : Cause → Prop where
  | missingClosingBrace : OfToken .missingClosingBrace
  | strayClosingBrace : OfToken .strayClosingBrace
  | expectedTagName : OfToken .expectedTagName
  | nestingTooDeep : OfToken .nestingTooDeep

/-- A problem that is raised by statements of some tokens: by one of them, or by words that
stand together and end no statement. -/
inductive Problem.OfStatements (ts : List Token) : Problem → Prop where
  | token {t : Token} {c : Cause} : t ∈ ts → c.OfToken → OfStatements ts ⟨t.span, c⟩
  | words {ws : List Token} {p : Problem} : ws <:+: ts → Statement.Words ws → p.OfWords ws →
      OfStatements ts p

namespace Problem.OfStatements

variable {ts us : List Token} {p : Problem}

theorem mono (problem : p.OfStatements us) (part : us <:+: ts) : p.OfStatements ts := by
  cases problem with
  | token member cause => exact .token (part.subset member) cause
  | words inside words problem => exact .words (inside.trans part) words problem

theorem start (problem : p.OfStatements ts) : ∃ t ∈ ts, p.span.start = t.start := by
  cases problem with
  | token member _ => exact ⟨_, member, rfl⟩
  | words part _ problem =>
      obtain ⟨t, member, start⟩ := problem.start
      exact ⟨t, part.subset member, start⟩

/-- A token that is quoted as unexpected ends no statement. -/
theorem word (problem : p.OfStatements ts) {text : String}
    (quoted : p.cause = .unexpectedToken text) : ∃ t ∈ ts, t.endsStatement = false ∧ text = t.word := by
  cases problem with
  | token _ cause => cases cause <;> cases quoted
  | words part words problem =>
      cases problem with
      | unexpectedToken member _ =>
          cases quoted
          exact ⟨_, part.subset member, words _ member, rfl⟩
      | _ => cases quoted

theorem of_unclosed {o : Token} {c : Option Token} (member : p ∈ unclosed o c) (inside : o ∈ ts) :
    p.OfStatements ts := by
  cases c with
  | some c => simp [unclosed] at member
  | none =>
      obtain rfl := List.mem_singleton.1 member
      exact .token inside .missingClosingBrace

end Problem.OfStatements

theorem mem_tagsOf_cons {textStop depth : Nat} {s : Statement} {r : List Statement} {p : Problem}
    (member : p ∈ (tagsOf textStop depth (s :: r)).2) :
    p ∈ (tagsOf textStop depth [s]).2 ∨ p ∈ (tagsOf textStop depth r).2 := by
  rwa [tagsOf_cons_append, List.mem_append] at member

section Groups

variable {textStop depth : Nat} {ws : List Token} {p : Problem}

theorem ofStatements_line (words : Statement.Words ws)
    (member : p ∈ (tagsOf textStop depth [.line ws]).2) : p.OfStatements ws := by
  rcases tagsOf_line_cases textStop depth ws with
    given | ⟨first, inside, given⟩ | ⟨first, _, h, ps, rfl, read, given⟩
  · simp [given] at member
  · rw [given] at member
    obtain rfl := List.mem_singleton.1 member
    exact .token inside .expectedTagName
  · rw [given] at member
    exact .words List.infix_rfl words (Head.ofWords_of_mem_read? read member)

theorem ofStatements_block (words : Statement.Words ws) {o : Token} {b : List Statement}
    {c : Option Token}
    (body : p ∈ (tagsOf textStop (depth + 1) b).2 → p.OfStatements (Statement.tokensOfList b))
    (member : p ∈ (tagsOf textStop depth [.block ws o b c]).2) :
    p.OfStatements (ws ++ o :: (Statement.tokensOfList b ++ c.toList)) := by
  have opening : o ∈ ws ++ o :: (Statement.tokensOfList b ++ c.toList) := by simp
  have inner : Statement.tokensOfList b <:+: ws ++ o :: (Statement.tokensOfList b ++ c.toList) :=
    ⟨ws ++ [o], c.toList, by simp⟩
  rcases tagsOf_block_cases textStop depth ws o b c with
    ⟨first, inside, given⟩ | ⟨first, _, h, ps, rfl, read, given⟩
  · rw [given, List.mem_cons] at member
    rcases member with rfl | member
    · rcases List.mem_append.1 inside with inside | inside
      · exact .token (List.mem_append_left _ inside) .expectedTagName
      · exact .token (List.mem_singleton.1 inside ▸ opening) .expectedTagName
    · exact .of_unclosed member opening
  · have raised (member : p ∈ ps) :
        p.OfStatements (first :: _ ++ o :: (Statement.tokensOfList b ++ c.toList)) :=
      .words (List.prefix_append _ _).isInfix words (Head.ofWords_of_mem_read? read member)
    rcases given with given | given
    · simp only [given, List.mem_append] at member
      rcases member with (member | member) | member
      · exact raised member
      · exact (body member).mono inner
      · exact .of_unclosed member opening
    · simp only [given, List.mem_append, List.mem_cons] at member
      rcases member with member | rfl | member
      · exact raised member
      · exact .token opening .nestingTooDeep
      · exact .of_unclosed member opening

end Groups

/-- **The problems of statements come from their tokens.** -/
theorem Statement.Grouped.ofStatements {ss : List Statement} (grouped : Grouped ss)
    {textStop depth : Nat} {p : Problem} (member : p ∈ (tagsOf textStop depth ss).2) :
    p.OfStatements (tokensOfList ss) := by
  have here {s : Statement} {r : List Statement} (problem : p.OfStatements s.tokens) :
      p.OfStatements (tokensOfList (s :: r)) := problem.mono (List.prefix_append _ _).isInfix
  have behind {s : Statement} {r : List Statement} (problem : p.OfStatements (tokensOfList r)) :
      p.OfStatements (tokensOfList (s :: r)) := problem.mono (List.suffix_append _ _).isInfix
  induction grouped generalizing depth with
  | nil => simp [tagsOf] at member
  | separator _ _ ih =>
      rw [tagsOf] at member
      exact behind (ih member)
  | stray _ _ ih =>
      rw [tagsOf] at member
      rcases List.mem_cons.1 member with rfl | member
      · exact .token List.mem_cons_self .strayClosingBrace
      · exact behind (ih member)
  | line _ words _ _ ih =>
      rcases mem_tagsOf_cons member with member | member
      · exact here (ofStatements_line words member)
      · exact behind (ih member)
  | block words _ _ _ _ ihBody ihRest =>
      rcases mem_tagsOf_cons member with member | member
      · exact here (ofStatements_block words ihBody member)
      · exact behind (ihRest member)

/-! ## The problems of pieces -/

/-- The causes that the scanner finds. -/
inductive Cause.OfPiece : Cause → Prop where
  | unexpectedCharacter (c : Char) : OfPiece (.unexpectedCharacter c)
  | unterminatedComment : OfPiece .unterminatedComment
  | unterminatedString : OfPiece .unterminatedString
  | unterminatedBinary : OfPiece .unterminatedBinary
  | invalidNumber (text : String) : OfPiece (.invalidNumber text)

/-- A problem of a piece begins where the piece does. -/
theorem Piece.of_problem? {start : Nat} {p : Piece} {problem : Problem}
    (found : p.problem? start = some problem) :
    problem.cause.OfPiece ∧ problem.span.start = start := by
  unfold Piece.problem? at found
  split at found
  case h_3 =>
    split at found
    · cases found
    · cases found
      exact ⟨.invalidNumber _, rfl⟩
  case h_4 =>
    obtain ⟨c, -, rfl⟩ := Option.map_eq_some_iff.1 found
    exact ⟨.unexpectedCharacter c, rfl⟩
  case h_7 => cases found
  all_goals
    cases found
    exact ⟨by constructor, rfl⟩

/-- The problems of pieces are found part by part. -/
theorem Piece.problems_append (start : Nat) (ps qs : List Piece) :
    Piece.problems start (ps ++ qs) =
      Piece.problems start ps ++ Piece.problems (start + width (ps.flatMap Piece.text)) qs := by
  induction ps generalizing start with
  | nil => rfl
  | cons p ps ih => simp [Piece.problems, ih, Nat.add_assoc]

/-- The problems of pieces begin within their text. -/
theorem Piece.of_mem_problems {start : Nat} {ps : List Piece} {problem : Problem}
    (member : problem ∈ Piece.problems start ps) :
    problem.cause.OfPiece ∧ start ≤ problem.span.start ∧
      problem.span.start ≤ start + width (ps.flatMap Piece.text) := by
  induction ps generalizing start with
  | nil => simp [Piece.problems] at member
  | cons p ps ih =>
      rw [Piece.problems, List.mem_append, Option.mem_toList] at member
      rw [List.flatMap_cons, width_append]
      rcases member with found | member
      · obtain ⟨cause, begins⟩ := of_problem? found
        exact ⟨cause, by omega, by omega⟩
      · obtain ⟨cause, low, high⟩ := ih member
        exact ⟨cause, by omega, by omega⟩

end PackageRecipe.Sdl
