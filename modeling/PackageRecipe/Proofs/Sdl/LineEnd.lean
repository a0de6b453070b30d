import Mathlib.Data.List.Defs
import PackageRecipe.Proofs.Sdl.Cutting
import PackageRecipe.Proofs.Sdl.Escaping

/-!
# Line ends of one and of two characters

A text is read in the same way whether its lines end in a line feed, or in a carriage return
and a line feed.

## Main Definitions

* `withReturns` — a text with a carriage return in front of each line feed
* `Token.SameContent` — two tokens of one kind that mean the same
* `Piece.Restyled` — the pieces of a text beside those of the text with carriage returns

## Design Notes

A carriage return in front of a line feed is taken for a blank by itself, belongs to a comment
or a line continuation in front of it, or is skipped with the line feed behind the backslash of
a string.  Each scan of the scanner has one lemma which says where it ends in the other text
(`run_withReturns`, `numeral_withReturns`, `quoted_withReturns`, ...).  `Begins.returned` puts
them together for one piece, and `restyled_split` goes from piece to piece.
-/

namespace PackageRecipe.Sdl

open PackageRecipe.Text

/-- A text with a carriage return in front of each line feed. -/
def withReturns (s : List Char) : List Char :=
  s.flatMap fun c => if c = '\n' then ['\r', '\n'] else [c]

@[simp] theorem withReturns_nil : withReturns [] = [] := rfl

@[simp] theorem withReturns_feed (s : List Char) :
    withReturns ('\n' :: s) = '\r' :: '\n' :: withReturns s := by
  simp [withReturns]

@[simp] theorem withReturns_cons {c : Char} (noFeed : c ≠ '\n') (s : List Char) :
    withReturns (c :: s) = c :: withReturns s := by
  simp [withReturns, noFeed]

@[simp] theorem withReturns_append (s t : List Char) :
    withReturns (s ++ t) = withReturns s ++ withReturns t :=
  List.flatMap_append

theorem withReturns_eq_self {s : List Char} (noFeed : '\n' ∉ s) : withReturns s = s := by
  induction s with
  | nil => rfl
  | cons c s ih =>
      rw [List.mem_cons, not_or] at noFeed
      rw [withReturns_cons (Ne.symm noFeed.1), ih noFeed.2]

theorem withReturns_take_drop (n : Nat) (s : List Char) :
    withReturns s = withReturns (s.take n) ++ withReturns (s.drop n) := by
  rw [← withReturns_append, List.take_append_drop]

/-- Only a line feed at the head of a text gets something in front of it. -/
theorem head?_withReturns {a : Char} (noReturn : a ≠ '\r') (noFeed : a ≠ '\n') (s : List Char) :
    (withReturns s).head? = some a ↔ s.head? = some a := by
  cases s with
  | nil => rfl
  | cons c s =>
      by_cases feed : c = '\n'
      · subst feed
        simp [Ne.symm noReturn, Ne.symm noFeed]
      · simp [feed]

/-- The kinds of tokens in which a line feed stands for itself. -/
def TokenKind.isVerbatim : TokenKind → Bool
  | .string true _ | .binary _ => true
  | _ => false

/-- Two tokens of one kind that mean the same. -/
structure Token.SameContent (t u : Token) : Prop where
  kind : u.kind = t.kind
  value : u.value?.map (fun v => (v.kind, v.text)) = t.value?.map fun v => (v.kind, v.text)
  text : t.kind ∈ [.identifier, .number, .date, .duration] → u.text = t.text

namespace Piece

/-! ## Scans over line ends -/

/-- A run that a line end stops is the same in both texts. -/
theorem run_withReturns {p : Char → Bool} (noReturn : p '\r' = false) (noFeed : p '\n' = false)
    (s : List Char) : run p (withReturns s) = run p s := by
  induction s with
  | nil => rfl
  | cons c s ih =>
      by_cases feed : c = '\n'
      · subst feed
        simp [run, noReturn, noFeed]
      · by_cases holds : p c
        · simpa [run, feed, holds] using ih
        · simp [run, feed, holds]

/-- The longest match of a pattern is the same in both texts, if no line end stands in a text of
the pattern. -/
theorem longest_withReturns {p : Pattern}
    (noReturn : ∀ t, Pattern.Matches p t → '\r' ∉ t) (noFeed : ∀ t, Pattern.Matches p t → '\n' ∉ t)
    (s : List Char) : p.longest (withReturns s) = p.longest s := by
  induction s generalizing p with
  | nil => rfl
  | cons c s ih =>
      by_cases feed : c = '\n'
      · subst feed
        rw [withReturns_feed, Pattern.longest_cons_of_notMem noReturn,
          Pattern.longest_cons_of_notMem noFeed]
      · have behind {a : Char} (absent : ∀ t, Pattern.Matches p t → a ∉ t) (t : List Char)
            (matched : Pattern.Matches (p.after c) t) : a ∉ t := by
          intro member
          exact absent _ (Pattern.matches_after.1 matched) (List.mem_cons_of_mem _ member)
        rw [withReturns_cons feed, Pattern.longest, Pattern.longest,
          ih (behind noReturn) (behind noFeed)]

/-- No character of a line end stands in a time of day. -/
theorem timeOfDay_within_notMem_lineEnd :
    Numeral.timeOfDay.Within (· ∉ ['\r', '\n']) := by
  refine timeOfDay_within ?_ ?_ (by simp)
  · intro c digit ends
    simp only [List.mem_cons, List.not_mem_nil, or_false] at ends
    rcases ends with rfl | rfl <;> exact absurd digit (by decide)
  · intro c zone ends
    simp only [List.mem_cons, List.not_mem_nil, or_false] at ends
    rcases ends with rfl | rfl <;> exact absurd zone (by decide)

/-- **A numeral is the same in both texts**, and holds no line feed. -/
theorem numeral_withReturns (c : Char) (s : List Char) :
    numeral c (withReturns s) = numeral c s ∧ '\n' ∉ s.take (numeral c s).2 := by
  obtain ⟨inside, rest, rfl, reach, all, -⟩ := run_cases Numeral.isNumeralChar s
  have absent {a : Char} (lineEnd : a ∈ ['\r', '\n']) (t : List Char)
      (matched : Pattern.Matches Numeral.timeOfDay t) : a ∉ t := by
    intro member
    exact timeOfDay_within_notMem_lineEnd.forall_mem matched a member lineEnd
  have noFeed : '\n' ∉ inside := fun member => absurd (all _ member) (by decide)
  have timed := longest_withReturns (absent (by simp)) (absent (by simp)) rest
  have reach' : run Numeral.isNumeralChar (inside ++ withReturns rest) = inside.length := by
    rw [← reach, ← run_withReturns (by decide) (by decide) (inside ++ rest), withReturns_append,
      withReturns_eq_self noFeed]
  rw [withReturns_append, withReturns_eq_self noFeed]
  unfold numeral
  simp only [reach, reach', List.take_left, List.drop_left, timed, true_and]
  split
  · rw [List.take_length_add_append, List.mem_append, not_or]
    refine ⟨noFeed, ?_⟩
    cases found : Numeral.timeOfDay.longest rest with
    | none => simp
    | some n => exact absent (by simp) _ (Pattern.matches_take_longest found)
  · split <;> simpa using noFeed

/-- A scan that has found its end in front of the first line feed is the same in both texts. -/
theorem Local.scan_withReturns {scan : List Char → Nat × Bool} (reads : Local scan) {s : List Char}
    (reach : (scan s).1 ≤ s.length) (closed : (scan s).2 = true)
    (noFeed : '\n' ∉ s.take (scan s).1) : scan (withReturns s) = scan s := by
  have whole : (s.take (scan s).1).length = (scan s).1 := List.length_take_of_le reach
  have found : scan (s.take (scan s).1) = scan s := by
    have inside := reads.inside (x := s.take (scan s).1) (y := s.drop (scan s).1)
    rw [List.take_append_drop] at inside
    exact inside (Nat.le_of_eq whole.symm)
  rw [withReturns_take_drop (scan s).1 s, withReturns_eq_self noFeed,
    reads.append_of_closed (by rw [found, closed]), found]

/-- A comment is closed at the same place in both texts. -/
theorem blockBody_withReturns {s : List Char} (closed : (blockBody s).2 = true) :
    blockBody (withReturns s) = ((withReturns (s.take (blockBody s).1)).length, true) := by
  induction s with
  | nil => simp [blockBody] at closed
  | cons c s ih =>
      by_cases ends : c = '*' ∧ s.head? = some '/'
      · obtain ⟨rfl, slash⟩ := ends
        obtain ⟨r, rfl⟩ := List.head?_eq_some_iff.1 slash
        simp [blockBody]
      · rw [blockBody_cons ends] at closed ⊢
        have ih := ih closed
        by_cases feed : c = '\n'
        · subst feed
          rw [withReturns_feed, blockBody_cons (by simp), blockBody_cons (by simp), ih]
          simp
        · have ends' : ¬ (c = '*' ∧ (withReturns s).head? = some '/') := by
            rwa [head?_withReturns (by decide) (by decide)]
          rw [withReturns_cons feed, blockBody_cons ends', ih]
          simp [feed]

theorem continuationBody_feed {blanks : List Char} (all : ∀ c ∈ blanks, isLineBlank c)
    (s : List Char) : continuationBody (blanks ++ '\n' :: s) = (blanks.length + 1, true) := by
  have reach : run isLineBlank (blanks ++ '\n' :: s) = blanks.length :=
    run_append all (by simp [isLineBlank])
  simp [continuationBody, reach]

/-- A line is continued over a line end of two characters, too. -/
theorem continuationBody_withReturns {s : List Char} (closed : (continuationBody s).2 = true) :
    continuationBody (withReturns s) =
      ((withReturns (s.take (continuationBody s).1)).length, true) := by
  obtain ⟨blanks, rest, all, rfl, body⟩ := continuationBody_cases s
  have noFeed : '\n' ∉ blanks := fun member => absurd (all _ member) (by decide)
  rcases body with ⟨rfl, body⟩ | ⟨⟨r, rfl⟩, body⟩ | body
  · rw [List.append_nil] at body ⊢
    rw [body, List.take_length, withReturns_eq_self noFeed, body]
  · have longer : ∀ c ∈ blanks ++ ['\r'], isLineBlank c := by
      simpa [or_imp, forall_and] using ⟨all, by decide⟩
    have found := continuationBody_feed longer (withReturns r)
    rw [List.append_assoc, List.cons_append, List.nil_append] at found
    rw [body, withReturns_append, withReturns_eq_self noFeed, withReturns_feed, found]
    simp [List.take_length_add_append, withReturns_eq_self noFeed]
  · rw [body] at closed
    contradiction

/-- **A string that is closed ends at the same quote in both texts**, and its body is decoded
alike.  A line feed stands there behind a backslash only. -/
theorem quoted_withReturns {s : List Char} (noReturn : '\r' ∉ s) {p : Escape.Place} {n : Nat}
    (ready : p ≠ .escape) (closed : quoted s = (n + 1, true)) :
    quoted (withReturns s) = ((withReturns (s.take n)).length + 1, true) ∧
      Escape.decodeFrom p (withReturns (s.take n)) = Escape.decodeFrom p (s.take n) := by
  induction s using quoted_induction generalizing p n with
  | empty | feed | lone | loneReturn => simp [quoted] at closed
  | pair => simp at noReturn
  | quote r =>
      obtain rfl : n = 0 := by simpa [quoted] using closed.symm
      simp [quoted]
  | escape d r different ih =>
      rw [quoted_escape different] at closed
      obtain ⟨m, rest⟩ := Escape.exists_quoted_eq r (congrArg Prod.snd closed)
      obtain rfl : n = m + 2 := by simpa [rest] using closed.symm
      have later : '\r' ∉ r := by
        intro member
        exact noReturn (List.mem_cons_of_mem _ (List.mem_cons_of_mem _ member))
      rw [List.take_succ_cons, List.take_succ_cons]
      have opened : p.step '\\' = .escape := Escape.Place.step_backslash ready
      by_cases feed : d = '\n'
      · subst feed
        have indent : Escape.Place.indent ≠ .escape := by simp
        obtain ⟨scanned, decoded⟩ := ih later indent rest
        constructor
        · simp [quoted, scanned]
        · rw [withReturns_cons (by decide), withReturns_feed, Escape.decodeFrom_cons p,
            Escape.decodeFrom_cons p, opened]
          simp [Escape.decodeFrom, isBlank, decoded]
      · obtain ⟨scanned, decoded⟩ := ih later (Escape.Place.step_escape_ne d) rest
        simp [feed, quoted_escape different, scanned, Escape.decodeFrom_cons, opened, decoded]
  | plain d r plain ih =>
      rw [quoted_plain plain] at closed
      obtain ⟨m, rest⟩ := Escape.exists_quoted_eq r (congrArg Prod.snd closed)
      obtain rfl : n = m + 1 := by simpa [rest] using closed.symm
      have feed : d ≠ '\n' := by
        rintro rfl
        simp at plain
      have backslash : d ≠ '\\' := by
        rintro rfl
        simp at plain
      obtain ⟨scanned, decoded⟩ := ih (fun member => noReturn (List.mem_cons_of_mem _ member))
        (Escape.Place.step_ne_escape ready backslash) rest
      rw [List.take_succ_cons]
      simp [feed, quoted_plain plain, scanned, Escape.decodeFrom_cons, decoded]

/-! ## Pieces of both texts -/

/-- The texts of a token in both texts: the same, or the bodies of strings that are decoded
alike. -/
def SameSpelling (kind : TokenKind) (x y : List Char) : Prop :=
  y = x ∨ kind = .string false true ∧
    Escape.decode (Token.body true y) = Escape.decode (Token.body true x)

/-- The pieces of a text, and those of the text with carriage returns. -/
inductive Restyled : List Piece → List Piece → Prop where
  | nil : Restyled [] []
  /-- The carriage return in front of a line feed is a blank. -/
  | feed {ps qs : List Piece} : Restyled ps qs →
      Restyled (⟨.token .newline, ['\n']⟩ :: ps)
        (⟨.blank, ['\r']⟩ :: ⟨.token .newline, ['\n']⟩ :: qs)
  | token {kind : TokenKind} {x y : List Char} {ps qs : List Piece} : SameSpelling kind x y →
      Restyled ps qs → Restyled (⟨.token kind, x⟩ :: ps) (⟨.token kind, y⟩ :: qs)
  | gap {kind : PieceKind} {x y : List Char} {ps qs : List Piece} : (∀ k, kind ≠ .token k) →
      Restyled ps qs → Restyled (⟨kind, x⟩ :: ps) (⟨kind, y⟩ :: qs)

/-- A piece that raises no problem, wherever it stands. -/
def Sound (p : Piece) : Prop :=
  ∀ start, p.problem? start = none

theorem problems_eq_nil_iff {start : Nat} {ps : List Piece} :
    problems start ps = [] ↔ ∀ p ∈ ps, p.Sound := by
  have anywhere (p : Piece) (n : Nat) : p.problem? n = none ↔ p.Sound := by
    constructor
    · intro none m
      unfold problem? at none ⊢
      split at none <;> simp_all
    · intro sound
      exact sound n
  induction ps generalizing start with
  | nil => simp [problems]
  | cons p ps ih => simp [problems, ih, anywhere]

theorem Restyled.sound {ps qs : List Piece} (restyled : Restyled ps qs)
    (sound : ∀ p ∈ ps, p.Sound) : ∀ q ∈ qs, q.Sound := by
  induction restyled with
  | nil => simp
  | feed rest ih =>
      obtain ⟨-, later⟩ := List.forall_mem_cons.1 sound
      exact List.forall_mem_cons.2 ⟨fun _ => rfl, List.forall_mem_cons.2 ⟨fun _ => rfl, ih later⟩⟩
  | token spelling rest ih =>
      obtain ⟨here, later⟩ := List.forall_mem_cons.1 sound
      refine List.forall_mem_cons.2 ⟨?_, ih later⟩
      rcases spelling with rfl | ⟨rfl, -⟩
      · exact here
      · exact fun _ => rfl
  | @gap kind x y ps qs noToken rest ih =>
      obtain ⟨here, later⟩ := List.forall_mem_cons.1 sound
      refine List.forall_mem_cons.2 ⟨?_, ih later⟩
      intro start
      have none := here start
      cases kind with
      | token k => exact absurd rfl (noToken k)
      | blank | lineComment => rfl
      | continuation joined | blockComment joined => cases joined <;> simp_all [problem?]

theorem SameSpelling.sameContent {kind : TokenKind} {x y : List Char}
    (spelling : SameSpelling kind x y) (gap gap' : List Char) (start start' : Nat) :
    Token.SameContent ⟨kind, x, gap, start⟩ ⟨kind, y, gap', start'⟩ := by
  rcases spelling with rfl | ⟨rfl, decoded⟩
  · refine ⟨rfl, ?_, fun _ => rfl⟩
    simp only [Token.value?, Option.map_map]
    rfl
  · refine ⟨rfl, ?_, by simp⟩
    simp [Token.value?, Token.literal?, decoded]

theorem Restyled.forall₂_tokens {ps qs : List Piece} (restyled : Restyled ps qs) :
    ∀ start gap start' gap', List.Forall₂ Token.SameContent (Token.ofPieces start gap ps)
      (Token.ofPieces start' gap' qs) := by
  induction restyled with
  | nil => exact fun _ _ _ _ => .nil
  | feed rest ih =>
      intro start gap start' gap'
      have same : SameSpelling .newline ['\n'] ['\n'] := .inl rfl
      exact .cons (same.sameContent _ _ _ _) (ih _ _ _ _)
  | token spelling rest ih =>
      intro start gap start' gap'
      exact .cons (spelling.sameContent _ _ _ _) (ih _ _ _ _)
  | @gap kind x y ps qs noToken rest ih =>
      intro start gap start' gap'
      cases kind with
      | token k => exact absurd rfl (noToken k)
      | _ => exact ih _ _ _ _

theorem Restyled.kind_getLast? {ps qs : List Piece} (restyled : Restyled ps qs) :
    qs.getLast?.map Piece.kind = ps.getLast?.map Piece.kind := by
  induction restyled with
  | nil => rfl
  | @feed ps qs _ ih | @token _ _ _ ps qs _ _ ih | @gap _ _ _ ps qs _ _ ih =>
      simp only [List.getLast?_cons, Option.map_some]
      cases left : ps.getLast? <;> cases right : qs.getLast? <;> simp_all

/-- The last pieces are of the same kind. -/
theorem Restyled.any_isOpenComment {ps qs : List Piece} (restyled : Restyled ps qs) :
    qs.getLast?.any isOpenComment = ps.getLast?.any isOpenComment := by
  have kinds := restyled.kind_getLast?
  cases left : ps.getLast? <;> cases right : qs.getLast? <;> simp_all [isOpenComment]

theorem StartsNumeral.returned {c : Char} {s : List Char} (starts : StartsNumeral c s) :
    StartsNumeral c (withReturns s) := by
  refine starts.imp_right fun ⟨sign, follows⟩ => ⟨sign, ?_⟩
  cases s with
  | nil => simp [digitFollows] at follows
  | cons d s =>
      have noFeed : d ≠ '\n' := by
        rintro rfl
        simp [digitFollows] at follows
      rw [withReturns_cons noFeed]
      exact follows

/-- No line feed stands in a run of characters that it does not belong to. -/
theorem feed_notMem_run {p : Char → Bool} (noFeed : p '\n' = false) (s : List Char) :
    '\n' ∉ s.take (run p s) := by
  obtain ⟨inside, rest, rfl, reach, all, -⟩ := run_cases p s
  rw [reach, List.take_left]
  intro member
  rw [all _ member] at noFeed
  contradiction

/-- **A piece of the one text is a piece of the other.**  Line feeds and comments up to them are
left out: the carriage return becomes a piece of its own, or a part of the comment. -/
theorem Begins.returned {c : Char} {s : List Char} {kind : PieceKind} {n : Nat}
    (begun : Begins c s kind n) (noReturn : '\r' ∉ s) (sound : Sound ⟨kind, c :: s.take n⟩)
    (flat : ∀ k, kind = .token k → k.isVerbatim → '\n' ∉ s.take n)
    (noComment : kind ≠ .lineComment) :
    Begins c (withReturns s) kind (withReturns (s.take n)).length ∧
      ∀ k, kind = .token k → SameSpelling k (c :: s.take n) (c :: withReturns (s.take n)) := by
  have reach := begun.le_length
  -- A piece without a line feed is the same in both texts.
  have same (noFeed : '\n' ∉ s.take n) (here : Begins c (withReturns s) kind n) :
      Begins c (withReturns s) kind (withReturns (s.take n)).length ∧
        ∀ k, kind = .token k → SameSpelling k (c :: s.take n) (c :: withReturns (s.take n)) := by
    rw [withReturns_eq_self noFeed, List.length_take_of_le reach]
    exact ⟨here, fun k _ => .inl rfl⟩
  cases begun with
  | mark marked => exact same (by simp) (.mark marked)
  | blank blank => exact same (by simp) (.blank blank)
  | lineComment => exact absurd rfl noComment
  | unknown stray => simpa [problem?] using sound 0
  | continuation backslash =>
      cases closed : (continuationBody s).2 with
      | false => simpa [problem?, closed] using sound 0
      | true =>
          have begun : Begins c (withReturns s) _ _ := .continuation backslash
          rw [continuationBody_withReturns closed] at begun
          exact ⟨begun, by simp⟩
  | blockComment slash star =>
      obtain ⟨r, rfl⟩ := List.head?_eq_some_iff.1 star
      simp only [List.drop_succ_cons, List.drop_zero] at sound ⊢
      cases closed : (blockBody r).2 with
      | false => simpa [problem?, closed] using sound 0
      | true =>
          have begun : Begins c (withReturns ('*' :: r)) _ _ := .blockComment slash (by simp)
          simp only [withReturns_cons (show '*' ≠ '\n' by decide), List.drop_succ_cons,
            List.drop_zero, blockBody_withReturns closed] at begun
          exact ⟨by simpa using begun, by simp⟩
  | quoted quote =>
      cases closed : (Piece.quoted s).2 with
      | false => simpa [problem?, closed] using sound 0
      | true =>
          obtain ⟨n, found⟩ := Escape.exists_quoted_eq s closed
          obtain ⟨scanned, decoded⟩ := quoted_withReturns noReturn (p := .body) (by simp) found
          have begun : Begins c (withReturns s) _ _ := .quoted quote
          have ends := Escape.take_of_quoted found
          have ends' : withReturns (s.take (n + 1)) = withReturns (s.take n) ++ ['"'] := by
            rw [ends, withReturns_append, withReturns_cons (by decide), withReturns_nil]
          rw [scanned] at begun
          rw [found, ends']
          refine ⟨by simpa using begun, ?_⟩
          rintro k ⟨⟩
          refine .inr ⟨rfl, ?_⟩
          simpa [Token.body, ends, Escape.decode] using decoded
  | raw quote =>
      cases closed : (upTo '\x60' s).2 with
      | false => simpa [problem?, closed] using sound 0
      | true =>
          have noFeed := flat _ rfl rfl
          have begun : Begins c (withReturns s) _ _ := .raw quote
          rw [(local_upTo _).scan_withReturns reach closed noFeed] at begun
          exact closed ▸ same noFeed begun
  | binary bracket =>
      cases closed : (upTo ']' s).2 with
      | false => simpa [problem?, closed] using sound 0
      | true =>
          have noFeed := flat _ rfl rfl
          have begun : Begins c (withReturns s) _ _ := .binary bracket
          rw [(local_upTo _).scan_withReturns reach closed noFeed] at begun
          exact closed ▸ same noFeed begun
  | numeral starts =>
      obtain ⟨found, noFeed⟩ := numeral_withReturns c s
      have begun : Begins c (withReturns s) _ _ := .numeral starts.returned
      rw [found] at begun
      exact same noFeed begun
  | identifier start =>
      have begun : Begins c (withReturns s) _ _ := .identifier start
      rw [run_withReturns (by decide) (by decide)] at begun
      exact same (feed_notMem_run (by decide) s) begun

theorem split_feed (s : List Char) :
    split ('\n' :: s) = ⟨.token .newline, ['\n']⟩ :: split s := by
  have feed : Begins '\n' s (.token .newline) 0 := .mark rfl
  rw [split_eq_cons feed, List.take_zero, List.drop_zero]

theorem split_withReturns_feed (s : List Char) :
    split (withReturns ('\n' :: s)) =
      ⟨.blank, ['\r']⟩ :: ⟨.token .newline, ['\n']⟩ :: split (withReturns s) := by
  have blank : Begins '\r' ('\n' :: withReturns s) .blank 0 := .blank rfl
  rw [withReturns_feed, split_eq_cons blank, List.take_zero, List.drop_zero, split_feed]

/-- A comment up to the end of the line takes the carriage return along. -/
theorem Restyled.lineComment {c : Char} {s : List Char} (starts : StartsLineComment c s)
    (behind : Restyled (split (s.drop (run (· != '\n') s)))
      (split (withReturns (s.drop (run (· != '\n') s))))) :
    Restyled (split (c :: s)) (split (c :: withReturns s)) := by
  have starts' : StartsLineComment c (withReturns s) := by
    refine starts.imp_right fun ⟨sign, follows⟩ => ⟨sign, ?_⟩
    rcases sign with rfl | rfl <;> exact (head?_withReturns (by decide) (by decide) s).2 follows
  rw [split_eq_cons (.lineComment starts), split_eq_cons (.lineComment starts')]
  refine .gap (by simp) ?_
  obtain ⟨line, rest, rfl, reach, all, ends⟩ := run_cases (· != '\n') s
  have noFeed : '\n' ∉ line := fun member => absurd (all _ member) (by decide)
  rw [reach, List.drop_left] at behind ⊢
  rw [withReturns_append, withReturns_eq_self noFeed]
  cases rest with
  | nil =>
      have whole : run (· != '\n') (line ++ withReturns []) = line.length := by
        rw [← reach, withReturns_nil]
      rw [whole, List.drop_left]
      exact behind
  | cons d r =>
      obtain rfl : d = '\n' := by simpa using ends d rfl
      have longer : ∀ a ∈ line ++ ['\r'], (a != '\n') = true := by
        simpa [or_imp, forall_and] using all
      have spelled : line ++ withReturns ('\n' :: r) =
          (line ++ ['\r']) ++ '\n' :: withReturns r := by simp
      rw [spelled, run_append longer (by simp), List.drop_left, split_feed, split_feed]
      rw [split_feed, split_withReturns_feed] at behind
      cases behind with
      | feed rest => exact .token (.inl rfl) rest

/-- **The pieces of a text with carriage returns.** -/
theorem restyled_split (s : List Char) (noReturn : '\r' ∉ s) (sound : ∀ p ∈ split s, p.Sound)
    (flat : ∀ p ∈ split s, ∀ k, p.kind = .token k → k.isVerbatim → '\n' ∉ p.text) :
    Restyled (split s) (split (withReturns s)) := by
  fun_induction split s with
  | case1 =>
      rw [withReturns_nil, split]
      exact .nil
  | case2 c s kind n computed ih =>
      have begun := begins_iff.2 computed
      rw [List.mem_cons, not_or] at noReturn
      obtain ⟨here, later⟩ := List.forall_mem_cons.1 sound
      obtain ⟨flatHere, flatLater⟩ := List.forall_mem_cons.1 flat
      have behind := ih (fun member => noReturn.2 (List.mem_of_mem_drop member)) later flatLater
      by_cases feed : c = '\n'
      · subst feed
        obtain ⟨rfl, rfl⟩ : kind = .token .newline ∧ n = 0 := by
          simpa [first, eq_comm] using computed
        rw [split_withReturns_feed]
        exact .feed behind
      · rw [withReturns_cons feed]
        by_cases comment : kind = .lineComment
        · subst comment
          rw [← split_eq_cons begun]
          cases begun with
          | lineComment starts => exact .lineComment starts behind
        · obtain ⟨returned, spelling⟩ := begun.returned noReturn.2 here
            (fun k token verbatim member => flatHere k token verbatim
              (List.mem_cons_of_mem _ member)) comment
          rw [split_eq_cons returned, withReturns_take_drop n s, List.take_left, List.drop_left]
          cases kind with
          | token k => exact .token (spelling k rfl) behind
          | _ => exact .gap (by simp) behind

end Piece

/-- **Line ends of two characters.**  A text without carriage returns that is read without a
problem is read in the same way if each line feed gets a carriage return in front of it, unless a
line feed stands for itself in a raw string or a binary literal. -/
theorem Lexing.ofText_withReturns (text : List Char) (noReturn : '\r' ∉ text)
    (clean : (ofText text).problems = [])
    (flat : ∀ t ∈ (ofText text).tokens, t.kind.isVerbatim → '\n' ∉ t.text) :
    (ofText (withReturns text)).problems = [] ∧
      List.Forall₂ Token.SameContent (ofText text).tokens (ofText (withReturns text)).tokens ∧
      (ofText (withReturns text)).endsInComment = (ofText text).endsInComment := by
  have sound := Piece.problems_eq_nil_iff.1 clean
  have restyled := Piece.restyled_split text noReturn sound fun p member k token verbatim => by
    obtain ⟨t, found, rfl, spelled⟩ := Token.exists_mem_ofPieces member token
    rw [← spelled]
    exact flat t found verbatim
  exact ⟨Piece.problems_eq_nil_iff.2 (restyled.sound sound), restyled.forall₂_tokens _ _ _ _,
    restyled.any_isOpenComment⟩

/-- Line feeds behind a line continuation, a comment, the backslash of a string, and a statement. -/
theorem Lexing.ofText_withReturns_of_lines :
    let text := "a \\\n 1L # c\nb \"x\\\n  y\" \x60z\x60\n--".toList
    '\r' ∉ text ∧ (ofText text).problems = [] ∧
      (∀ t ∈ (ofText text).tokens, t.kind.isVerbatim → '\n' ∉ t.text) ∧
      (ofText (withReturns text)).problems = [] ∧
      List.Forall₂ Token.SameContent (ofText text).tokens (ofText (withReturns text)).tokens ∧
      (ofText (withReturns text)).endsInComment = (ofText text).endsInComment := by
  intro text
  have noReturn : '\r' ∉ text := by decide
  have clean : (ofText "a \\\n 1L # c\nb \"x\\\n  y\" \x60z\x60\n--".toList).problems = [] := by cbv
  have tokens : (ofText "a \\\n 1L # c\nb \"x\\\n  y\" \x60z\x60\n--".toList).tokens.all
      (fun t => !t.kind.isVerbatim || !t.text.contains '\n') = true := by cbv
  have flat : ∀ t ∈ (ofText text).tokens, t.kind.isVerbatim → '\n' ∉ t.text := by
    intro t member verbatim
    simpa [verbatim] using List.all_eq_true.1 tokens t member
  exact ⟨noReturn, clean, flat, ofText_withReturns text noReturn clean flat⟩

end PackageRecipe.Sdl
