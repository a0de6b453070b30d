import PackageRecipe.Proofs.Sdl.Reporting

/-!
# Braces without a partner

Braces are matched from the left with a stack, as a reader of the text would do it.  The
statements of a text match them from the right.  This file shows that both leave the same
braces without a partner, and that the problems of a document report just these.

## Main Definitions

* `Unpaired` — the braces among some tokens that have no partner, found with a stack
* `Statement.Opens` — groups that are balanced but for some blocks that stay open
* `Statement.Suffix.Leaves` — what grouping gives, with its braces without a partner
* `Document.reported` — the places where a document reports a message

## Design Notes

`Opens` and `Leaves` carry the braces without a partner as indices, so that the stack and
the problems are both compared with them: `Leaves.foldl_step` runs the stack over the
tokens of the groups, and `Leaves.braceProblems` collects the problems of the groups.
-/

namespace PackageRecipe.Sdl

open PackageRecipe.Text

/-! ## Matching with a stack -/

/-- The braces without a partner among tokens that have been read. -/
structure Unpaired where
  /-- The opening braces of the blocks that are open, the innermost first. -/
  opened : List Token
  /-- The closing braces that closed nothing, in order. -/
  strays : List Token

namespace Unpaired

/-- One more token is read.  A closing brace is the partner of the innermost opening
brace that has none yet. -/
def step (u : Unpaired) (t : Token) : Unpaired :=
  match t.kind with
  | .leftBrace => { u with opened := t :: u.opened }
  | .rightBrace =>
    match u.opened with
    | [] => { u with strays := u.strays ++ [t] }
    | _ :: outer => { u with opened := outer }
  | _ => u

/-- The braces without a partner among some tokens. -/
def ofTokens (ts : List Token) : Unpaired :=
  ts.foldl step ⟨[], []⟩

variable {u : Unpaired} {t : Token}

theorem step_of_leftBrace (kind : t.kind = .leftBrace) :
    u.step t = { u with opened := t :: u.opened } := by
  simp [step, kind]

theorem step_of_rightBrace (kind : t.kind = .rightBrace) (o : Token) (opened strays : List Token) :
    step ⟨o :: opened, strays⟩ t = ⟨opened, strays⟩ := by
  simp [step, kind]

theorem step_of_stray (kind : t.kind = .rightBrace) (strays : List Token) :
    step ⟨[], strays⟩ t = ⟨[], strays ++ [t]⟩ := by
  simp [step, kind]

theorem step_of_separator (separator : t.IsSeparator) : u.step t = u := by
  rcases separator with kind | kind <;> simp [step, kind]

/-- Words are passed over. -/
theorem foldl_step_words {ws : List Token} (words : Statement.Words ws) : ws.foldl step u = u := by
  induction ws with
  | nil => rfl
  | cons w ws ih =>
      obtain ⟨word, words⟩ := Statement.words_cons.1 words
      have same : u.step w = u := by
        unfold step
        cases kind : w.kind <;> simp_all [Token.endsStatement]
      rw [List.foldl_cons, same, ih words]

/-- The stack keeps the tokens in their order. -/
theorem strays_sublist (u : Unpaired) (ts : List Token) :
    (ts.foldl step u).strays.Sublist (u.strays ++ ts) := by
  induction ts generalizing u with
  | nil => simp
  | cons t ts ih =>
      have first : (u.step t).strays.Sublist (u.strays ++ [t]) := by
        unfold step
        split
        · exact List.sublist_append_left _ _
        · split
          · exact List.Sublist.refl _
          · exact List.sublist_append_left _ _
        · exact List.sublist_append_left _ _
      rw [List.foldl_cons]
      simpa using (ih (u.step t)).trans (first.append_right ts)

end Unpaired

/-! ## The braces that groups leave without a partner -/

namespace Statement

/-- Groups that are balanced but for the blocks of the braces `os`, each of which stays
open up to the end of the groups and holds the next one. -/
inductive Opens : List Token → List Statement → Prop where
  | balanced {ss : List Statement} : Balanced ss → Opens [] ss
  | block {ss b : List Statement} {ws os : List Token} {o : Token} :
      Balanced ss → Words ws → o.kind = .leftBrace → Opens os b →
      Opens (o :: os) (ss ++ [block ws o b none])

/-- The groups on the right of a place in a token sequence, with the closing braces `cs`
and the opening braces `os` among them that have no partner. -/
inductive Suffix.Leaves : List Token → List Token → Suffix → Prop where
  | last {os : List Token} {ss : List Statement} : Opens os ss → Leaves [] os ⟨ss, []⟩
  | stray {cs os : List Token} {c : Token} {ss r : List Statement}
      {outer : List (Token × List Statement)} :
      Balanced ss → c.kind = .rightBrace → Leaves cs os ⟨r, outer⟩ →
      Leaves (c :: cs) os ⟨ss, (c, r) :: outer⟩

theorem Balanced.consWord {t : Token} (word : t.endsStatement = false) {r : List Statement}
    (balanced : Balanced r) : Balanced (consWord t r) := by
  have alone : Words [t] := by simpa [Words] using word
  cases balanced with
  | nil => exact .line (by simp) alone trivial .nil
  | separator isSeparator rest => exact .line (by simp) alone trivial (.separator isSeparator rest)
  | line _ words separated rest =>
      exact .line (by simp) (words_cons.2 ⟨word, words⟩) separated rest
  | block words opening body closing rest =>
      exact .block (words_cons.2 ⟨word, words⟩) opening body closing rest

theorem Opens.cons {os : List Token} {s : Statement}
    (balanced : ∀ {r}, Balanced r → Balanced (s :: r)) {ss : List Statement} (opens : Opens os ss) :
    Opens os (s :: ss) := by
  cases opens with
  | balanced rest => exact .balanced (balanced rest)
  | block rest words opening body => exact .block (balanced rest) words opening body

theorem Opens.consWord {os : List Token} {t : Token} (word : t.endsStatement = false)
    {ss : List Statement} (opens : Opens os ss) : Opens os (consWord t ss) := by
  cases opens with
  | balanced balanced => exact .balanced (balanced.consWord word)
  | @block ss b ws os o balanced words opening body =>
      cases ss with
      | nil => exact .block .nil (words_cons.2 ⟨word, words⟩) opening body
      | cons s r =>
          -- The word goes to the first of the groups, in front of the open block.
          have front (x : List Statement) :
              Statement.consWord t (s :: r ++ x) = Statement.consWord t (s :: r) ++ x := by
            cases s <;> rfl
          rw [front]
          exact .block (balanced.consWord word) words opening body

/-- What is done at the head of the groups leaves all braces without a partner as they
are, if it keeps the groups in front of the first of these. -/
theorem Suffix.Leaves.change {cs os : List Token} {ss : List Statement}
    {outer : List (Token × List Statement)} {change : List Statement → List Statement}
    (balanced : ∀ {r}, Balanced r → Balanced (change r))
    (opens : ∀ {os r}, Opens os r → Opens os (change r)) (leaves : Leaves cs os ⟨ss, outer⟩) :
    Leaves cs os ⟨change ss, outer⟩ := by
  cases leaves with
  | last here => exact .last (opens here)
  | stray here closing rest => exact .stray (balanced here) closing rest

theorem Suffix.Leaves.cons {cs os : List Token} {s : Suffix} (leaves : s.Leaves cs os) (t : Token) :
    ∃ cs' os', (s.cons t).Leaves cs' os' := by
  obtain ⟨here, outer⟩ := s
  by_cases word : t.endsStatement = false
  · rw [cons_of_word word]
    exact ⟨cs, os, leaves.change (·.consWord word) (·.consWord word)⟩
  · have ends : t.IsSeparator ∨ t.kind = .rightBrace ∨ t.kind = .leftBrace := by
      cases kind : t.kind <;> simp_all [Token.endsStatement, Token.IsSeparator]
    rcases ends with isSeparator | kind | kind
    · rw [cons_of_separator isSeparator]
      refine ⟨cs, os, leaves.change (.separator isSeparator) ?_⟩
      exact fun opens => opens.cons (.separator isSeparator)
    · rw [cons_of_rightBrace kind]
      exact ⟨t :: cs, os, .stray .nil kind leaves⟩
    · cases leaves with
      | last opens =>
          -- No brace is left to close the block.
          refine ⟨[], t :: os, ?_⟩
          unfold Suffix.cons
          rw [kind]
          exact .last (.block .nil (by simp [Words]) kind opens)
      | @stray cs os c ss r outer balanced closing rest =>
          rw [cons_of_leftBrace kind rfl]
          have add {r : List Statement} (rest : Balanced r) :
              Balanced (block [] t here (some c) :: r) :=
            .block (by simp [Words]) kind balanced closing rest
          exact ⟨cs, os, rest.change add fun opens => opens.cons add⟩

/-! ### The stack on the tokens of groups -/

/-- Balanced groups leave the stack as it is. -/
theorem Balanced.foldl_step {ss : List Statement} (balanced : Balanced ss) (u : Unpaired) :
    (tokensOfList ss).foldl Unpaired.step u = u := by
  induction balanced generalizing u with
  | nil => rfl
  | separator isSeparator _ ih =>
      rw [tokensOfList, tokens, List.singleton_append, List.foldl_cons,
        Unpaired.step_of_separator isSeparator, ih]
  | line _ words _ _ ih =>
      rw [tokensOfList, tokens, List.foldl_append, Unpaired.foldl_step_words words, ih]
  | block words opening _ closing _ ihBody ihRest =>
      rw [tokensOfList_block, List.foldl_append, List.foldl_cons, List.foldl_append,
        List.foldl_cons, Unpaired.foldl_step_words words, Unpaired.step_of_leftBrace opening,
        ihBody, Unpaired.step_of_rightBrace closing, ihRest]

/-- Blocks that stay open are put onto the stack. -/
theorem Opens.foldl_step {os : List Token} {ss : List Statement} (opens : Opens os ss)
    (u : Unpaired) : (tokensOfList ss).foldl Unpaired.step u =
      { u with opened := os.reverse ++ u.opened } := by
  induction opens generalizing u with
  | balanced balanced => rw [balanced.foldl_step]; rfl
  | @block ss b ws os o balanced words opening _ ih =>
      have last : tokensOfList [Statement.block ws o b none] = ws ++ o :: tokensOfList b := by
        simp [tokensOfList, tokens]
      rw [tokensOfList_append, last, List.foldl_append, balanced.foldl_step, List.foldl_append,
        Unpaired.foldl_step_words words, List.foldl_cons, Unpaired.step_of_leftBrace opening, ih]
      simp

theorem Suffix.close_stray (c : Token) (ss r : List Statement)
    (outer : List (Token × List Statement)) :
    (Suffix.mk ss ((c, r) :: outer)).close = ss ++ stray c :: (Suffix.mk r outer).close := by
  simp [Suffix.close]

theorem Suffix.Leaves.foldl_step {cs os : List Token} {s : Suffix} (leaves : s.Leaves cs os)
    (strays : List Token) :
    (tokensOfList s.close).foldl Unpaired.step ⟨[], strays⟩ = ⟨os.reverse, strays ++ cs⟩ := by
  induction leaves generalizing strays with
  | last opens => simp [Suffix.close, opens.foldl_step]
  | stray balanced closing _ ih =>
      rw [close_stray, tokensOfList_append, List.foldl_append, balanced.foldl_step, tokensOfList,
        tokens, List.singleton_append, List.foldl_cons, Unpaired.step_of_stray closing, ih]
      simp

/-- **Grouping and the stack leave the same braces without a partner.** -/
theorem leaves_ofTokens (ts : List Token) :
    (Suffix.ofTokens ts).Leaves (Unpaired.ofTokens ts).strays
      (Unpaired.ofTokens ts).opened.reverse := by
  have shape : ∃ cs os, (Suffix.ofTokens ts).Leaves cs os := by
    induction ts with
    | nil => exact ⟨[], [], .last (.balanced .nil)⟩
    | cons t ts ih =>
        obtain ⟨cs, os, leaves⟩ := ih
        exact leaves.cons t
  obtain ⟨cs, os, leaves⟩ := shape
  have run := leaves.foldl_step []
  rw [show (Suffix.ofTokens ts).close = ofTokens ts from rfl, tokens_ofTokens] at run
  rw [Unpaired.ofTokens, run]
  simpa using leaves

end Statement

/-! ## Problems about braces -/

/-- The problem is about a brace without a partner. -/
def Problem.isOfBrace (p : Problem) : Bool :=
  p.cause = .missingClosingBrace ∨ p.cause = .strayClosingBrace

theorem Problem.filter_isOfBrace {c : Cause}
    (brace : c = .missingClosingBrace ∨ c = .strayClosingBrace) {ps : List Problem} :
    (ps.filter isOfBrace).filter (·.cause = c) = ps.filter (·.cause = c) := by
  rw [List.filter_filter]
  apply List.filter_congr
  intro p _
  by_cases same : p.cause = c <;> simp [isOfBrace, same, brace]

/-- The problem of an opening brace without a partner. -/
def Problem.missing (o : Token) : Problem := ⟨o.span, .missingClosingBrace⟩

/-- The problem of a closing brace without a partner. -/
def Problem.stray (c : Token) : Problem := ⟨c.span, .strayClosingBrace⟩

/-- The problems about braces among those of some statements. -/
def braceProblems (textStop depth : Nat) (ss : List Statement) : List Problem :=
  (tagsOf textStop depth ss).2.filter Problem.isOfBrace

section BraceProblems

variable {textStop depth : Nat}

theorem braceProblems_append (a b : List Statement) :
    braceProblems textStop depth (a ++ b) =
      braceProblems textStop depth a ++ braceProblems textStop depth b := by
  simp [braceProblems, tagsOf_append]

theorem braceProblems_cons (s : Statement) (r : List Statement) :
    braceProblems textStop depth (s :: r) =
      braceProblems textStop depth [s] ++ braceProblems textStop depth r :=
  braceProblems_append [s] r

/-- The words of a statement raise no problem about a brace. -/
theorem filter_isOfBrace_read? {ws : List Token} {h : Head} {ps : List Problem}
    (read : Head.read? ws = some (h, ps)) : ps.filter Problem.isOfBrace = [] := by
  rw [List.filter_eq_nil_iff]
  intro p member
  cases Head.ofWords_of_mem_read? read member <;> simp [Problem.isOfBrace]

theorem braceProblems_line (ws : List Token) :
    braceProblems textStop depth [.line ws] = [] := by
  unfold braceProblems
  rcases tagsOf_line_cases textStop depth ws with
    given | ⟨first, _, given⟩ | ⟨first, words, h, ps, _, read, given⟩
  · simp [given]
  · simp [given, Problem.isOfBrace]
  · rw [given]
    exact filter_isOfBrace_read? read

/-- A block reports its own opening brace, and unless its content is skipped also what is
reported there. -/
theorem braceProblems_block (textStop depth : Nat) (ws : List Token) (o : Token)
    (b : List Statement) (c : Option Token) :
    ∃ inner, (inner = [] ∨ inner = braceProblems textStop (depth + 1) b) ∧
      braceProblems textStop depth [.block ws o b c] = inner ++ unclosed o c := by
  have own : (unclosed o c).filter Problem.isOfBrace = unclosed o c := by
    cases c <;> simp [unclosed, Problem.isOfBrace]
  unfold braceProblems
  rcases tagsOf_block_cases textStop depth ws o b c with
    ⟨first, _, given⟩ | ⟨first, words, h, ps, _, read, given | given⟩
  · exact ⟨[], .inl rfl, by simp [given, own, Problem.isOfBrace]⟩
  · exact ⟨_, .inr rfl, by simp [given, own, filter_isOfBrace_read? read]⟩
  · exact ⟨[], .inl rfl, by simp [given, own, filter_isOfBrace_read? read, Problem.isOfBrace]⟩

/-- Balanced groups report no brace. -/
theorem Statement.Balanced.braceProblems {ss : List Statement} (balanced : Balanced ss)
    (textStop depth : Nat) : braceProblems textStop depth ss = [] := by
  induction balanced generalizing depth with
  | nil => simp [Sdl.braceProblems, tagsOf]
  | separator _ _ ih => rw [braceProblems_cons, ih]; simp [Sdl.braceProblems, tagsOf]
  | line _ _ _ _ ih => rw [braceProblems_cons, braceProblems_line, ih]; rfl
  | @block ws o c b r _ _ _ _ _ ihBody ihRest =>
      obtain ⟨inner, source, reported⟩ := braceProblems_block textStop depth ws o b (some c)
      rw [ihBody, or_self] at source
      rw [braceProblems_cons, reported, source, ihRest]
      rfl

/-- Blocks that stay open report some of their braces, and among them the outermost. -/
theorem Statement.Opens.braceProblems {os : List Token} {ss : List Statement} (opens : Opens os ss)
    (textStop depth : Nat) :
    ∃ os' ⊆ os, (os' = [] ↔ os = []) ∧
      braceProblems textStop depth ss = os'.map Problem.missing := by
  induction opens generalizing depth with
  | balanced balanced => exact ⟨[], List.nil_subset _, Iff.rfl, balanced.braceProblems _ _⟩
  | @block ss b ws os o balanced _ _ _ ih =>
      obtain ⟨inner, source, reported⟩ := braceProblems_block textStop depth ws o b none
      obtain ⟨os', inside, -, below⟩ := ih (depth + 1)
      rw [braceProblems_append, balanced.braceProblems, reported, List.nil_append]
      rcases source with rfl | rfl
      · exact ⟨[o], by simp, by simp, rfl⟩
      · refine ⟨os' ++ [o], ?_, by simp, by rw [below]; simp [unclosed, Problem.missing]⟩
        simpa using List.subset_cons_of_subset o inside

/-- The problems about braces are those of the closing braces without a partner, and some
of the opening ones. -/
theorem Statement.Suffix.Leaves.braceProblems {cs os : List Token} {s : Suffix}
    (leaves : s.Leaves cs os) (textStop depth : Nat) :
    ∃ os' ⊆ os, (os' = [] ↔ os = []) ∧ braceProblems textStop depth s.close =
      cs.map Problem.stray ++ os'.map Problem.missing := by
  induction leaves with
  | last opens => simpa [Suffix.close] using opens.braceProblems textStop depth
  | stray balanced _ _ ih =>
      obtain ⟨os', inside, some, rest⟩ := ih
      refine ⟨os', inside, some, ?_⟩
      rw [close_stray, braceProblems_append, balanced.braceProblems, braceProblems_cons, rest]
      simp [Sdl.braceProblems, tagsOf, Problem.isOfBrace, Problem.stray]

end BraceProblems

/-! ## Messages about braces -/

theorem Cause.message_eq_stray {c : Cause} :
    c.message = "Unexpected '\x7d'" ↔ c = .strayClosingBrace ∨ c = .unexpectedToken "\x7d" := by
  constructor
  · intro same
    have chars := congrArg String.toList same
    unfold message at chars
    cases c with
    | strayClosingBrace => exact .inl rfl
    | unexpectedToken text =>
        have quoted : text.toList ++ ['\''] = ['}'] ++ ['\''] := by simpa using chars
        have text : text.toList = "\x7d".toList := List.append_cancel_right quoted
        exact .inr (congrArg _ (String.toList_injective text))
    | _ => simp at chars
  · rintro (rfl | rfl) <;> rfl

/-- A cause with a wording that no other cause can have. -/
def Cause.hasOwnMessage : Cause → Bool
  | .unterminatedComment | .unterminatedString | .unterminatedBinary | .missingClosingBrace
  | .expectedTagName | .valueAfterAttribute | .nestingTooDeep => true
  | _ => false

theorem Cause.message_eq_iff {c d : Cause} (own : d.hasOwnMessage) :
    c.message = d.message ↔ c = d := by
  constructor
  · intro same
    have chars := congrArg String.toList same
    unfold message at chars
    cases d <;> first | contradiction | (cases c <;> simp at chars ⊢)
  · rintro rfl
    rfl

theorem Cause.message_eq_missing {c : Cause} :
    c.message = "Missing closing '\x7d'" ↔ c = .missingClosingBrace :=
  Cause.message_eq_iff (d := .missingClosingBrace) rfl

/-- A token that is spelled as a closing brace is one. -/
theorem Token.Lexed.kind_of_word {t : Token} (lexed : t.Lexed) (word : t.word = "\x7d") :
    t.kind = .rightBrace := by
  obtain ⟨c, s, n, begun, text⟩ := lexed
  have chars : t.text = ['}'] := by simpa [Token.word] using congrArg String.toList word
  obtain ⟨rfl, -⟩ := List.cons.inj (text.symm.trans chars)
  have first := begun.first_eq
  simp only [Piece.first, Prod.mk.injEq, PieceKind.token.injEq] at first
  exact first.1.symm

/-- The places where a document reports a message, in order. -/
def Document.reported (d : Document) (message : String) : List Span :=
  (d.problems.filter fun p => p.cause.message = message).map Problem.span

section Reported

variable (text : List Char)

/-- A document quotes no closing brace as a token that it did not expect. -/
theorem cause_ne_unexpectedToken {p : Problem} (member : p ∈ (Document.ofText text).problems) :
    p.cause ≠ .unexpectedToken "\x7d" := by
  intro quoted
  rw [Document.ofText, Problem.mem_sort, List.mem_append] at member
  rcases member with member | member
  · have cause := (Piece.of_mem_problems member).1
    rw [quoted] at cause
    cases cause
  · obtain ⟨t, member, word, same⟩ :=
      ((Statement.grouped_ofTokens _).ofStatements member).word quoted
    rw [Statement.tokens_ofTokens] at member
    have kind := ((Lexing.placed_tokens text).lexed t member).kind_of_word same.symm
    simp [Token.endsStatement, kind] at word

/-- The messages with one wording are the problems with one cause. -/
theorem Document.reported_eq {message : String} {cause : Cause}
    (only : ∀ p ∈ (Document.ofText text).problems, p.cause.message = message ↔ p.cause = cause) :
    (Document.ofText text).reported message =
      ((Document.ofText text).problems.filter (·.cause = cause)).map Problem.span := by
  have same : (Document.ofText text).problems.filter (·.cause.message = message) =
      (Document.ofText text).problems.filter (·.cause = cause) := by
    apply List.filter_congr
    intro p member
    simp [only p member]
  rw [reported, same]

/-- Before they are sorted, the problems about braces are those of the closing braces
without a partner, and of some of the opening ones. -/
theorem Document.problems_of_braces :
    let unpaired := Unpaired.ofTokens (Lexing.ofText text).tokens
    ∃ ps os, (Document.ofText text).problems = Problem.sort ps ∧ os ⊆ unpaired.opened ∧
      (os = [] ↔ unpaired.opened = []) ∧
      ps.filter (·.cause = .strayClosingBrace) = unpaired.strays.map Problem.stray ∧
      ps.filter (·.cause = .missingClosingBrace) = os.map Problem.missing := by
  intro unpaired
  have leaves := Statement.leaves_ofTokens (Lexing.ofText text).tokens
  obtain ⟨os, inside, some, reported⟩ := leaves.braceProblems (textStop text) 0
  have scanner : (Lexing.ofText text).problems.filter Problem.isOfBrace = [] := by
    rw [List.filter_eq_nil_iff]
    intro p member
    have cause := (Piece.of_mem_problems member).1
    unfold Problem.isOfBrace
    generalize p.cause = c at cause
    cases cause <;> simp
  have all : ((Lexing.ofText text).problems ++ (tagsOfText text).2).filter Problem.isOfBrace =
      unpaired.strays.map Problem.stray ++ os.map Problem.missing := by
    rw [List.filter_append, scanner, List.nil_append]
    exact reported
  refine ⟨(Lexing.ofText text).problems ++ (tagsOfText text).2, os, rfl, ?_, by simpa using some,
    ?_, ?_⟩
  · simpa [List.subset_def] using inside
  · rw [← Problem.filter_isOfBrace (.inr rfl), all, List.filter_append, List.filter_eq_self.2,
      List.filter_eq_nil_iff.2, List.append_nil] <;> simp [Problem.stray, Problem.missing]
  · rw [← Problem.filter_isOfBrace (.inl rfl), all, List.filter_append, List.filter_eq_nil_iff.2,
      List.filter_eq_self.2, List.nil_append] <;> simp [Problem.stray, Problem.missing]

end Reported

/-- **Errors never mis-nest braces.**  A document reports each closing brace without a
partner once, at its place and nowhere else.  It reports opening braces without a partner,
and no others, and at least one of them if there are any. -/
theorem Document.reported_braces (text : List Char) :
    let unpaired := Unpaired.ofTokens (Lexing.ofText text).tokens
    (Document.ofText text).reported "Unexpected '\x7d'" = unpaired.strays.map Token.span ∧
      ((Document.ofText text).reported "Missing closing '\x7d'" ≠ [] ↔ unpaired.opened ≠ []) ∧
      ∀ s ∈ (Document.ofText text).reported "Missing closing '\x7d'",
        s ∈ unpaired.opened.map Token.span := by
  intro unpaired
  have strays : unpaired.strays.Pairwise fun a b => a.start ≤ b.start := by
    have ordered := (Lexing.placed_tokens text).ordered.sublist
      (Unpaired.strays_sublist ⟨[], []⟩ (Lexing.ofText text).tokens)
    exact ordered.imp fun apart => Nat.le_trans (Nat.le_add_right _ _) apart
  have messageStray : ∀ p ∈ (Document.ofText text).problems,
      p.cause.message = "Unexpected '\x7d'" ↔ p.cause = .strayClosingBrace := by
    intro p member
    rw [Cause.message_eq_stray, or_iff_left (cause_ne_unexpectedToken text member)]
  obtain ⟨ps, os, problems, inside, some, left, right⟩ := Document.problems_of_braces text
  have closing : (Document.ofText text).reported "Unexpected '\x7d'" =
      unpaired.strays.map Token.span := by
    rw [Document.reported_eq text messageStray, problems, Problem.filter_sort, left, List.map_map]
    · rfl
    · rw [left, List.pairwise_map]
      exact strays
  have opening : ((Document.ofText text).reported "Missing closing '\x7d'").Perm
      (os.map Token.span) := by
    rw [Document.reported_eq text fun p _ => Cause.message_eq_missing, problems]
    have perm := ((Problem.sort_perm ps).filter (·.cause = .missingClosingBrace)).map Problem.span
    rw [right, List.map_map] at perm
    exact perm
  refine ⟨closing, ?_, ?_⟩
  · rw [ne_eq, ne_eq, ← some, ← List.length_eq_zero_iff, opening.length_eq, List.length_map,
      List.length_eq_zero_iff]
  · intro s member
    exact List.map_subset Token.span inside (opening.subset member)

end PackageRecipe.Sdl
