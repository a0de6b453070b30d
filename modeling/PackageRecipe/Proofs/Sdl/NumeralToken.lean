import Mathlib
import PackageRecipe.Proofs.Sdl.Cutting
import PackageRecipe.Proofs.Sdl.Numeral
import PackageRecipe.Proofs.Sdl.Reporting

/-!
# The numerals of a text

Which texts are read as one numeral, which numbers are reported, and how far a numeral reaches in
the text that holds it.

## Main Definitions

* `Numeral.timeWord` — the blanks and the word that follow a date
* `Numeral.MalformedTime` — they begin with a time of day, but are none as a whole

## Design Notes

A numeral reaches as far as its characters go, so that nothing can continue it.  A date takes a
time of day along, which ends where its pattern does and not where the word ends.  In front of a
malformed time the word is therefore cut, and the date is directly followed by what is left of it
(`Lexing.numeral_maximal`).
-/

namespace PackageRecipe.Sdl

open PackageRecipe.Text PackageRecipe.Text.Pattern

/-! ## Texts that are one numeral -/

namespace Piece

section Whole

variable {kind : TokenKind} {c : Char} {s : List Char}

theorem split_of_denotes (denotes : Numeral.Denotes kind (c :: s))
    (all : ∀ a ∈ s, Numeral.isNumeralChar a) (starts : StartsNumeral c s) :
    split (c :: s) = [⟨.token kind, c :: s⟩] := by
  have read : numeral c (s ++ []) = (kind, s.length) :=
    denotes.numeral_eq all (by simp) fun _ => by decide
  have begun : Begins c s _ _ := .numeral starts
  rw [List.append_nil] at read
  rw [read] at begun
  rw [split_eq_cons begun, List.take_length, List.drop_length, split]

/-- A sign in front of a point begins nothing. -/
theorem stray_of_point : Stray '-' ('.' :: s) :=
  { stray_nil (c := '-') (by simp) with
    noLineComment := by simp [StartsLineComment]
    noBlockComment := by simp
    noNumeral := by simp [StartsNumeral, digitFollows] }

/-- How a text is read that is a numeral as a whole. -/
theorem split_numeral {s : List Char} (denotes : Numeral.Denotes kind s)
    (ascii : ∀ c ∈ s, c.toNat < 0x80) :
    split s = if ['-', '.'] <+: s then [⟨.token .unknown, ['-']⟩, ⟨.token .number, s.tail⟩]
      else [⟨.token kind, s⟩] := by
  obtain ⟨body, spelled, unsigned, inner, all⟩ := denotes.numeralChars ascii
  have isDigit {d : Char} (member : d ∈ s) (digit : isDecimalDigit d) : d.isDigit :=
    isDigit_of_isDecimalDigit (ascii d member) digit
  cases unsigned with
  | @digit kind d r digit =>
      rcases spelled with rfl | rfl
      · have digit := isDigit (by simp) digit
        have noSign : ¬ ['-', '.'] <+: d :: r := by
          rintro ⟨t, same⟩
          obtain ⟨rfl, -⟩ := List.cons.inj same
          simp at digit
        rw [if_neg noSign]
        exact split_of_denotes denotes (List.forall_mem_cons.1 all).2 (.inl digit)
      · have digit := isDigit (by simp) digit
        have noSign : ¬ ['-', '.'] <+: '-' :: d :: r := by
          rintro ⟨t, same⟩
          simp only [List.cons_append, List.nil_append, List.cons.injEq, true_and] at same
          obtain ⟨rfl, -⟩ := same
          simp at digit
        rw [if_neg noSign]
        exact split_of_denotes denotes all (.inr ⟨.inl rfl, digit⟩)
  | @point d r digit =>
      have point : split ('.' :: d :: r) = [⟨.token .number, '.' :: d :: r⟩] := by
        refine split_of_denotes inner (List.forall_mem_cons.1 all).2 (.inr ⟨.inr rfl, ?_⟩)
        rcases spelled with rfl | rfl <;> exact isDigit (by simp) digit
      rcases spelled with rfl | rfl
      · rw [if_neg (by simp)]
        exact point
      · have begun : Begins '-' ('.' :: d :: r) (.token .unknown) 0 := .unknown stray_of_point
        rw [if_pos (by simp), split_eq_cons begun]
        simp [point]

end Whole

end Piece

/-- What stands behind a sign in front of a point is a number by itself. -/
theorem Numeral.Denotes.tail_of_point {kind : TokenKind} {s : List Char}
    (denotes : Denotes kind s) (point : ['-', '.'] <+: s) : Denotes .number s.tail := by
  obtain ⟨body, spelled, unsigned, inner, -⟩ :=
    denotes.exists_body (P := fun _ => True) (fun _ _ => trivial) (fun _ _ => trivial)
  obtain ⟨r, rfl⟩ := point
  cases unsigned with
  | @digit kind d r digit =>
      -- Neither the sign nor the point is a digit.
      rcases spelled with same | same
      · obtain rfl : '-' = d := by simpa using congrArg List.head? same
        exact absurd digit (by decide)
      · obtain rfl : '.' = d := by simpa using congrArg (fun s => s.tail.head?) same
        exact absurd digit (by decide)
  | point digit =>
      rcases spelled with same | same
      · simp at same
      · rw [same]
        exact inner

/-- No problem is raised by a numeral. -/
theorem Numeral.Denotes.problem?_eq_none {kind : TokenKind} {s : List Char}
    (denotes : Denotes kind s) (start : Nat) :
    (Piece.mk (.token kind) s).problem? start = none := by
  cases denotes with
  | integer matched => simp [Piece.problem?, isNumber_iff.2 (.integer matched)]
  | float matched => simp [Piece.problem?, isNumber_iff.2 (.float matched)]
  | date | duration => rfl

/-! ## Numbers that are reported -/

/-- Of the number tokens of some pieces those are reported that are no numbers. -/
theorem Piece.invalidNumber_mem_problems_iff {start : Nat} {gap : List Char} {ps : List Piece}
    (nonempty : ∀ p ∈ ps, p.text ≠ []) {t : Token} (member : t ∈ Token.ofPieces start gap ps)
    (number : t.kind = .number) :
    (∃ word, ⟨t.span, .invalidNumber word⟩ ∈ problems start ps) ↔
      ¬ Numeral.Denotes .number t.text := by
  rw [← Numeral.isNumber_iff]
  induction ps generalizing start gap with
  | nil => simp [Token.ofPieces] at member
  | cons p ps ih =>
      have ih := fun gap => @ih (start + width p.text) gap fun q inside =>
        nonempty q (List.mem_cons_of_mem p inside)
      have wide : 0 < width p.text := width_pos (nonempty p List.mem_cons_self)
      -- The problem of the first piece begins with it, and the others behind it.
      have later {q : Problem} (raised : q ∈ problems (start + width p.text) ps) :
          start < q.span.start := by
        have := (of_mem_problems raised).2.1
        omega
      have behind {gap : List Char}
          (member : t ∈ Token.ofPieces (start + width p.text) gap ps) :
          (∃ word, ⟨t.span, .invalidNumber word⟩ ∈ problems start (p :: ps)) ↔
            ¬ Numeral.isNumber t.text := by
        rw [← ih gap member]
        refine exists_congr fun word => ?_
        rw [problems, List.mem_append, Option.mem_toList]
        refine or_iff_right fun raised => ?_
        have same : t.start = start := (of_problem? raised).2
        have := (Token.bounds_of_mem_ofPieces member).1
        omega
      rw [Token.ofPieces] at member
      split at member
      · rename_i kind token
        rcases List.mem_cons.1 member with rfl | member
        · obtain rfl : kind = .number := number
          constructor
          · rintro ⟨word, raised⟩ valid
            rw [problems, List.mem_append, Option.mem_toList] at raised
            rcases raised with raised | raised
            · simp only at valid
              simp [problem?, token, valid] at raised
            · exact Nat.lt_irrefl _ (later raised)
          · intro invalid
            refine ⟨String.ofList p.text, ?_⟩
            rw [problems, List.mem_append, Option.mem_toList]
            left
            simp only at invalid
            simp [problem?, token, invalid, Token.span, Token.stop]
        · exact behind member
      · exact behind member

/-- **The numerals of a text.**  An ASCII text that is written as a numeral is read as one token
without a problem, unless it begins with a minus sign and a point: there the sign is reported, and
the rest is a number.  In every text a number token is reported exactly if it is not written as a
number. -/
theorem Lexing.ofText_numeral (text : List Char) :
    (∀ kind, Numeral.Denotes kind text → (∀ c ∈ text, c.toNat < 0x80) →
      Lexing.ofText text =
        if ['-', '.'] <+: text then
          ⟨[⟨.unknown, ['-'], [], 0⟩, ⟨.number, text.tail, [], 1⟩],
            [⟨⟨0, 1⟩, .unexpectedCharacter '-'⟩], false⟩
        else ⟨[⟨kind, text, [], 0⟩], [], false⟩) ∧
    ∀ t ∈ (Lexing.ofText text).tokens, t.kind = .number →
      ((∃ word, ⟨t.span, .invalidNumber word⟩ ∈ (Lexing.ofText text).problems) ↔
        ¬ Numeral.Denotes .number t.text) := by
  constructor
  · intro kind denotes ascii
    rw [Lexing.ofText, Piece.split_numeral denotes ascii]
    split
    · rename_i point
      have valid := Numeral.isNumber_iff.2 (denotes.tail_of_point point)
      have sign : '-'.utf8Size = 1 := by decide
      simp [Token.ofPieces, Piece.problems, Piece.problem?, Piece.isOpenComment, valid, sign]
    · simp [Token.ofPieces, Piece.problems, denotes.problem?_eq_none, Piece.isOpenComment]
  · intro t member number
    exact Piece.invalidNumber_mem_problems_iff (fun p => Piece.text_ne_nil_of_mem_split) member
      number

/-- A negative duration with days and a fraction is one token. -/
theorem Lexing.ofText_numeral_of_days :
    let s := "-2d:12:30:00.125".toList
    Numeral.Denotes .duration s ∧ Lexing.ofText s = ⟨[⟨.duration, s, [], 0⟩], [], false⟩ := by
  intro s
  have accepted : Numeral.duration.accepts "-2d:12:30:00.125".toList = true := by cbv
  have denotes : Numeral.Denotes .duration s := .duration ((accepts_iff_matches _ _).1 accepted)
  have low : "-2d:12:30:00.125".toList.all (·.toNat < 0x80) = true := by cbv
  have ascii : ∀ c ∈ s, c.toNat < 0x80 := fun c member =>
    of_decide_eq_true (List.all_eq_true.1 low c member)
  refine ⟨denotes, ?_⟩
  rw [(ofText_numeral s).1 _ denotes ascii]
  exact if_neg (by decide)

/-- A minus sign and a fraction without a leading digit form a number, which is cut in two, with
a problem at the sign. -/
theorem Lexing.not_ofText_numeral_of_point :
    Numeral.Denotes .number "-.5".toList ∧
      Lexing.ofText "-.5".toList = ⟨[⟨.unknown, ['-'], [], 0⟩, ⟨.number, ".5".toList, [], 1⟩],
        [⟨⟨0, 1⟩, .unexpectedCharacter '-'⟩], false⟩ := by
  have accepted : Numeral.float.accepts "-.5".toList = true := by cbv
  exact ⟨.float ((accepts_iff_matches _ _).1 accepted), by cbv⟩

/-! ## How far a numeral reaches -/

namespace Numeral

/-- A blank in front of a time of day. -/
def isTimeBlank (c : Char) : Bool :=
  c == ' ' || c == '\t'

/-- A character that can continue the word in which a time of day stands. -/
def isTimeChar (c : Char) : Bool :=
  isNumeralChar c || isDecimalDigit c || c == '-' || c == '+'

/-- The blanks and the word at the head of a text. -/
def timeWord (s : List Char) : List Char :=
  s.takeWhile isTimeBlank ++ (s.dropWhile isTimeBlank).takeWhile isTimeChar

/-- A text begins with a time of day, but the word in which this stands is none as a whole. -/
def MalformedTime (s : List Char) : Prop :=
  (∃ time, time <+: s ∧ Matches timeOfDay time) ∧ ¬ Matches timeOfDay (timeWord s)

theorem timeWord_prefix (s : List Char) : timeWord s <+: s := by
  obtain ⟨rest, word⟩ := List.takeWhile_prefix (l := s.dropWhile isTimeBlank) isTimeChar
  refine ⟨rest, ?_⟩
  rw [timeWord, List.append_assoc, word, List.takeWhile_append_dropWhile]

/-- A time of day is a word behind blanks. -/
theorem exists_word_of_timeOfDay {s : List Char} (matched : Matches timeOfDay s) :
    ∃ blanks c word, s = blanks ++ c :: word ∧ (∀ b ∈ blanks, isTimeBlank b) ∧
      isTimeBlank c = false ∧ ∀ a ∈ c :: word, isTimeChar a := by
  rw [Piece.timeOfDay_eq] at matched
  obtain ⟨blanks, word, rfl, front, rest⟩ := matches_seq.1 matched
  have blank : (oneOf [' ', '\t']).some.Within (isTimeBlank ·) := by
    simp [Pattern.some, Pattern.Within, oneOf, isTimeBlank]
  have inside : Piece.clock.Within (isTimeChar ·) := by
    apply Piece.clock_within
    · intro c digit
      simp [isTimeChar, digit]
    · intro c zone
      simp only [isZoneChar, Bool.or_eq_true] at zone
      rcases zone with ((letter | colon) | plus) | slash <;> simp_all [isTimeChar, isNumeralChar]
    · simp [isTimeChar, isNumeralChar]
  have leads : Piece.clock.Leads (isDecimalDigit ·) := by
    simp [Piece.clock, Pattern.all, Pattern.between, digit, Leads]
  obtain ⟨c, word, rfl, digit⟩ := leads.exists_cons rest
  refine ⟨blanks, c, word, rfl, blank.forall_mem front, ?_, inside.forall_mem rest⟩
  simp [isTimeBlank, ne_of_digit (a := ' ') digit (by decide),
    ne_of_digit (a := '\t') digit (by decide)]

/-- The word of a text that begins with a time of day goes on as far as its characters do. -/
theorem timeWord_append {time : List Char} (matched : Matches timeOfDay time) (s : List Char) :
    timeWord (time ++ s) = time ++ s.takeWhile isTimeChar := by
  obtain ⟨blanks, c, word, rfl, blank, first, inside⟩ := exists_word_of_timeOfDay matched
  have front : ((blanks ++ c :: word) ++ s).takeWhile isTimeBlank = blanks := by
    rw [List.append_assoc, List.takeWhile_append_of_pos blank, List.cons_append,
      List.takeWhile_cons_of_neg (by simp [first]), List.append_nil]
  have behind : ((blanks ++ c :: word) ++ s).dropWhile isTimeBlank = (c :: word) ++ s := by
    rw [List.append_assoc, List.dropWhile_append_of_pos blank, List.cons_append,
      List.dropWhile_cons_of_neg (by simp [first])]
  rw [timeWord, front, behind, List.takeWhile_append_of_pos inside, List.append_assoc]

/-- **A time of day is malformed** exactly if the longest one ends inside of a word. -/
theorem malformedTime_iff (s : List Char) :
    MalformedTime s ↔ ∃ n c, timeOfDay.longest s = Option.some n ∧ c ∈ (s.drop n).head? ∧
      isTimeChar c := by
  cases found : timeOfDay.longest s with
  | none =>
      simp only [reduceCtorEq, false_and, exists_false, iff_false]
      rintro ⟨⟨time, ⟨rest, rfl⟩, matched⟩, -⟩
      obtain ⟨n, longest, -⟩ := length_le_longest matched rest
      rw [found] at longest
      contradiction
  | some n =>
      have matched := matches_take_longest found
      have reach := longest_le_length found
      have word : timeWord s = s.take n ++ (s.drop n).takeWhile isTimeChar := by
        rw [← timeWord_append matched, List.take_append_drop]
      simp only [Option.some.injEq, exists_and_left, exists_eq_left']
      constructor
      · rintro ⟨-, malformed⟩
        apply Classical.byContradiction
        intro ends
        apply malformed
        rw [word]
        cases rest : s.drop n with
        | nil => simpa using matched
        | cons c r =>
            rw [rest] at ends
            rw [List.takeWhile_cons_of_neg (by simpa using ends), List.append_nil]
            exact matched
      · rintro ⟨c, head, inside⟩
        refine ⟨⟨s.take n, List.take_prefix n s, matched⟩, fun whole => ?_⟩
        -- The word would be a longer time of day than the longest one.
        obtain ⟨rest, same⟩ := timeWord_prefix s
        obtain ⟨m, longest, longer⟩ := length_le_longest whole rest
        obtain ⟨r, behind⟩ : ∃ r, s.drop n = c :: r := by
          cases rest : s.drop n with
          | nil => simp [rest] at head
          | cons d r =>
              obtain rfl : d = c := by simpa [rest] using head
              exact ⟨r, rfl⟩
        rw [same, found, Option.some.injEq] at longest
        rw [word, behind, List.takeWhile_cons_of_pos inside, List.length_append,
          List.length_take_of_le reach, List.length_cons] at longer
        omega

end Numeral

namespace Piece

/-- A numeral is where one may begin, and reaches as far as `numeral` says. -/
theorem Begins.eq_numeral {c : Char} {s : List Char} {token : TokenKind} {n : Nat}
    (begun : Begins c s (.token token) n)
    (kind : token = .number ∨ token = .date ∨ token = .duration) :
    StartsNumeral c s ∧ (token, n) = Piece.numeral c s := by
  cases begun with
  | numeral starts => exact ⟨starts, rfl⟩
  | mark mark => rcases kind with rfl | rfl | rfl <;> simp [TokenKind.mark?] at mark
  | _ => simp at kind

/-- A date begins with a digit. -/
theorem isNumeralChar_of_date {c : Char} {s r : List Char} (starts : StartsNumeral c s)
    (accepted : Numeral.date.accepts (c :: r)) : Numeral.isNumeralChar c := by
  obtain ⟨d, r, same, digit⟩ :=
    Numeral.date_leads.exists_cons ((Pattern.accepts_iff_matches _ _).1 accepted)
  obtain ⟨rfl, -⟩ := List.cons.inj same
  rcases starts with ascii | ⟨rfl | rfl, -⟩
  · simp [Numeral.isNumeralChar, Char.isAlphanum, ascii]
  · exact absurd digit (by decide)
  · exact absurd digit (by decide)

/-- Behind a numeral there is no character that could continue it, unless it is a date with a
time of day that ends inside of a word. -/
theorem numeral_ends {c : Char} {s : List Char} (starts : StartsNumeral c s) :
    let malformed := (numeral c s).1 = .date ∧
      Numeral.MalformedTime ((c :: s).dropWhile Numeral.isNumeralChar)
    let behind := s.drop (numeral c s).2
    (¬ malformed → ∀ a ∈ behind.head?, Numeral.isNumeralChar a = false) ∧
      (malformed → ∃ a ∈ behind.head?, Numeral.isTimeChar a) := by
  obtain ⟨inside, rest, rfl, reach, all, ends⟩ := run_cases Numeral.isNumeralChar s
  intro malformed behind
  simp only [malformed, behind]
  unfold numeral
  simp only [reach, List.take_left, List.drop_left]
  split
  · rename_i accepted
    have timed : (c :: (inside ++ rest)).dropWhile Numeral.isNumeralChar = rest := by
      rw [List.dropWhile_cons_of_pos (isNumeralChar_of_date starts accepted),
        List.dropWhile_append_of_pos all]
      cases rest with
      | nil => rfl
      | cons a rest => exact List.dropWhile_cons_of_neg (by simp [ends a rfl])
    rw [← List.drop_drop, List.drop_left, timed]
    simp only [true_and, Numeral.malformedTime_iff]
    cases found : Numeral.timeOfDay.longest rest with
    | none => simpa using ends
    | some n =>
        simp only [Option.some.injEq, exists_and_left, exists_eq_left', Option.getD_some]
        refine ⟨fun closed a head => ?_, id⟩
        rw [Bool.eq_false_iff]
        intro numeral
        exact closed ⟨a, head, by simp [Numeral.isTimeChar, numeral]⟩
  · split <;> simpa using ends

end Piece

/-- The place of a token: the text falls into what stands in front of it, the token, and the
text behind it. -/
theorem Lexing.exists_begins {text : List Char} {t : Token}
    (member : t ∈ (Lexing.ofText text).tokens) :
    ∃ front c s n, text = front ++ c :: s ∧ t.start = width front ∧
      Piece.Begins c s (.token t.kind) n ∧ t.text = c :: s.take n := by
  obtain ⟨us, vs, cut⟩ := List.append_of_mem member
  obtain ⟨done, p, todo, pieces, kind, -, same, -⟩ := Token.cut_ofPieces cut
  have spelled : text = done.flatMap Piece.text ++ (p :: todo).flatMap Piece.text := by
    rw [← List.flatMap_append, ← pieces, Piece.flatten_split]
  have behind := Piece.split_behind pieces
  cases rest : (p :: todo).flatMap Piece.text with
  | nil =>
      rw [rest, Piece.split] at behind
      contradiction
  | cons c s =>
      have begun := Piece.begins_first c s
      rw [rest, Piece.split_eq_cons begun] at behind
      obtain ⟨rfl, -⟩ := List.cons.inj behind
      simp only at kind
      rw [kind] at begun
      refine ⟨done.flatMap Piece.text, c, s, _, rest ▸ spelled, ?_, begun, ?_⟩
      · rw [same, Nat.zero_add]
      · rw [same]

/-- **Numerals are maximal.**  Behind a number, a date or a duration there is no character that
could continue it.  Only the time of day behind a date may end where it does not in the text: in
a malformed time the token ends inside of the word. -/
theorem Lexing.numeral_maximal (text : List Char) {t : Token}
    (member : t ∈ (Lexing.ofText text).tokens)
    (kind : t.kind = .number ∨ t.kind = .date ∨ t.kind = .duration) :
    let behind := dropBytes t.stop text
    let malformed := t.kind = .date ∧
      Numeral.MalformedTime ((dropBytes t.start text).dropWhile Numeral.isNumeralChar)
    (¬ malformed → ∀ c ∈ behind.head?, ¬ c.isAlphanum ∧ c ∉ ['.', ':', '/', '_']) ∧
      (malformed → ∃ c ∈ behind.head?, Numeral.isTimeChar c) := by
  obtain ⟨front, c, s, n, rfl, start, begun, spelled⟩ := exists_begins member
  obtain ⟨starts, same⟩ := begun.eq_numeral kind
  have here : dropBytes t.start (front ++ c :: s) = c :: s := by
    rw [start, dropBytes_width_append]
  have there : dropBytes t.stop (front ++ c :: s) = s.drop n := by
    have whole : front ++ c :: s = (front ++ t.text) ++ s.drop n := by
      rw [spelled, List.append_assoc, List.cons_append, List.take_append_drop]
    rw [Token.stop, start, ← width_append, whole, dropBytes_width_append]
  have closed := Piece.numeral_ends starts
  rw [← same] at closed
  rw [here, there]
  refine ⟨fun whole a head => ?_, closed.2⟩
  simpa [Numeral.isNumeralChar, and_assoc] using closed.1 whole a head

/-- A date takes its time along, with the time zone. -/
theorem Lexing.numeral_maximal_of_zone :
    let text := "released 2024/01/31 12:30:15.125-GMT+1 true".toList
    let t : Token := ⟨.date, "2024/01/31 12:30:15.125-GMT+1".toList, [' '], 9⟩
    t ∈ (Lexing.ofText text).tokens ∧
      ¬ Numeral.MalformedTime ((dropBytes t.start text).dropWhile Numeral.isNumeralChar) ∧
      ∀ c ∈ (dropBytes t.stop text).head?, ¬ c.isAlphanum ∧ c ∉ ['.', ':', '/', '_'] := by
  intro text t
  have tokens : (Lexing.ofText "released 2024/01/31 12:30:15.125-GMT+1 true".toList).tokens =
      [⟨.identifier, "released".toList, [], 0⟩,
        ⟨.date, "2024/01/31 12:30:15.125-GMT+1".toList, [' '], 9⟩,
        ⟨.identifier, "true".toList, [' '], 39⟩] := by cbv
  have member : t ∈ (Lexing.ofText text).tokens := by
    rw [tokens]
    exact List.mem_cons_of_mem _ List.mem_cons_self
  have whole : ¬ Numeral.MalformedTime
      ((dropBytes t.start text).dropWhile Numeral.isNumeralChar) := by
    have word : Numeral.timeOfDay.accepts " 12:30:15.125-GMT+1".toList = true := by cbv
    have same : Numeral.timeWord ((dropBytes 9
        "released 2024/01/31 12:30:15.125-GMT+1 true".toList).dropWhile Numeral.isNumeralChar) =
        " 12:30:15.125-GMT+1".toList := by cbv
    intro malformed
    apply malformed.2
    rw [same]
    exact (accepts_iff_matches _ _).1 word
  exact ⟨member, whole, (numeral_maximal text member (.inr (.inl rfl))).1 fun both => whole both.2⟩

/-- A time with minutes of three digits is cut in two, without a problem. -/
theorem Lexing.not_numeral_maximal_of_minutes :
    let text := "2024/01/31 12:300".toList
    (Lexing.ofText text).problems = [] ∧
      ∃ t ∈ (Lexing.ofText text).tokens, t.kind = .date ∧
        ∃ c ∈ (dropBytes t.stop text).head?, c.isAlphanum := by
  intro text
  have read : Lexing.ofText "2024/01/31 12:300".toList =
      ⟨[⟨.date, "2024/01/31 12:30".toList, [], 0⟩, ⟨.number, ['0'], [], 16⟩], [], false⟩ := by
    cbv
  rw [read]
  exact ⟨rfl, _, List.mem_cons_self, rfl, '0', by decide⟩

end PackageRecipe.Sdl
