import PackageRecipe.Proofs.Sdl.Scanning

/-!
# What is read as a numeral

The numbers, dates and durations of a text against the patterns of their written forms.

## Main Definitions

* `Numeral.Denotes` — the texts of each kind of numeral, by the patterns alone
* `Numeral.Unsigned` — how a numeral begins behind its sign
* `Numeral.symbols` — the characters of a numeral that are no digits

## Design Notes

Three decisions have to fit: which characters begin a numeral, which ones it reaches over, and
which texts are numerals.  What the first two ask of a text is read off the patterns
(`Denotes.exists_body`), the third by telling the patterns apart by their symbols
(`Denotes.numeral_eq`).  They do not fit in one place: a sign in front of a point is in the
pattern of a fraction, but begins no numeral.
-/

namespace PackageRecipe.Sdl

open PackageRecipe.Text PackageRecipe.Text.Pattern

namespace Numeral

/-! ## The written forms -/

/-- The text is a numeral of a kind, without a time of day. -/
inductive Denotes : TokenKind → List Char → Prop where
  | integer {s : List Char} : Matches integer s → Denotes .number s
  | float {s : List Char} : Matches float s → Denotes .number s
  | date {s : List Char} : Matches date s → Denotes .date s
  | duration {s : List Char} : Matches duration s → Denotes .duration s

theorem isNumber_iff {s : List Char} : isNumber s ↔ Denotes .number s := by
  rw [isNumber, Bool.or_eq_true, accepts_iff_matches, accepts_iff_matches]
  constructor
  · rintro (whole | fraction)
    · exact .integer whole
    · exact .float fraction
  · rintro (whole | fraction)
    · exact .inl whole
    · exact .inr fraction

/-- A text that begins with a digit, or if it is a number with a point and a digit. -/
inductive Unsigned : TokenKind → List Char → Prop where
  | digit {kind : TokenKind} {d : Char} {r : List Char} : isDecimalDigit d → Unsigned kind (d :: r)
  | point {d : Char} {r : List Char} : isDecimalDigit d → Unsigned .number ('.' :: d :: r)

theorem Unsigned.of_leads {kind : TokenKind} {p : Pattern} {s : List Char}
    (leads : p.Leads (isDecimalDigit ·)) (matched : Matches p s) : Unsigned kind s := by
  obtain ⟨d, r, rfl, first⟩ := leads.exists_cons matched
  exact .digit first

theorem Unsigned.append {kind : TokenKind} {s : List Char} (unsigned : Unsigned kind s)
    (t : List Char) : Unsigned kind (s ++ t) := by
  cases unsigned with
  | digit first => exact .digit first
  | point first => exact .point first

theorem digits_leads (ps : List Pattern) :
    (Pattern.all (digits :: ps)).Leads (isDecimalDigit ·) := fun _ first => first

theorem date_leads : Numeral.date.Leads (isDecimalDigit ·) := by
  simp [Numeral.date, Pattern.all, Pattern.between, digit, Leads]

/-- A sign may stand in front of a pattern. -/
theorem matches_signed {p : Pattern} {s : List Char} :
    Matches (.seq sign p) s ↔ ∃ body, Matches p body ∧ (s = body ∨ s = '-' :: body) := by
  simp only [matches_seq, sign, opt, matches_alt, matches_char, matches_empty]
  constructor
  · rintro ⟨front, body, rfl, rfl | rfl, rest⟩
    · exact ⟨body, rest, .inr rfl⟩
    · exact ⟨body, rest, .inl rfl⟩
  · rintro ⟨body, rest, rfl | rfl⟩
    · exact ⟨[], s, rfl, .inr rfl, rest⟩
    · exact ⟨['-'], body, rfl, .inl rfl, rest⟩

/-- The digits of a fraction stand on one side of its point, or on both. -/
theorem unsigned_of_fraction {p : Pattern} {s : List Char}
    (matched : Matches (.seq (.alt (.all [digits, char '.', .many digit])
      (.alt (.all [char '.', digits]) digits)) p) s) : Unsigned .number s := by
  obtain ⟨front, r, rfl, matched, -⟩ := matches_seq.1 matched
  refine Unsigned.append ?_ r
  rcases matches_alt.1 matched with both | matched
  · exact .of_leads (digits_leads _) both
  · rcases matches_alt.1 matched with behind | whole
    · obtain ⟨point, rest, rfl, isPoint, after⟩ := matches_seq.1 behind
      obtain ⟨d, r, rfl, first⟩ := (digits_leads []).exists_cons after
      rw [matches_char.1 isPoint]
      exact .point first
    · exact .of_leads (p := digits) (fun _ first => first) whole

/-- Days may stand in front of hours. -/
theorem unsigned_of_days {ps : List Pattern} {s : List Char}
    (matched : Matches (.seq (Pattern.all [digits, char 'd', char ':']).opt
      (.all (digits :: ps))) s) : Unsigned .duration s := by
  obtain ⟨front, r, rfl, days, hours⟩ := matches_seq.1 matched
  rcases matches_alt.1 days with days | none
  · exact (Unsigned.of_leads (digits_leads _) days).append r
  · rw [matches_empty.1 none]
    exact .of_leads (digits_leads _) hours

/-- The characters of a kind of numeral besides its digits and its sign. -/
def symbols : TokenKind → List Char
  | .number => ['.', 'l', 'L', 'f', 'F', 'd', 'D', 'b', 'B']
  | .date => ['/']
  | .duration => ['d', ':', '.']
  | _ => []

/-- **What a numeral is made of.**  Behind its sign there are digits and the symbols of its kind,
and they form a numeral by themselves. -/
theorem Denotes.exists_body {kind : TokenKind} {s : List Char} (denotes : Denotes kind s)
    {P : Char → Prop} (digit : ∀ c, isDecimalDigit c → P c) (fixed : ∀ c ∈ symbols kind, P c) :
    ∃ body, (s = body ∨ s = '-' :: body) ∧ Unsigned kind body ∧ Denotes kind body ∧
      ∀ c ∈ body, P c := by
  have digit : Numeral.digit.Within P := digit
  have two := digit.between 2 0
  have oneOrTwo := digit.between 1 1
  have upToThree := digit.between 1 2
  have four := digit.between 4 0
  cases denotes with
  | integer matched =>
      obtain ⟨body, unsigned, spelled⟩ := matches_signed.1 matched
      refine ⟨body, spelled, .of_leads (digits_leads _) unsigned, ?_, ?_⟩
      · exact .integer (matches_signed.2 ⟨body, unsigned, .inl rfl⟩)
      · refine Within.forall_mem ?_ unsigned
        simp_all [digits, Pattern.all, Pattern.opt, Pattern.some, Pattern.Within, oneOf, symbols]
  | float matched =>
      obtain ⟨body, unsigned, spelled⟩ := matches_signed.1 matched
      refine ⟨body, spelled, unsigned_of_fraction unsigned, ?_, ?_⟩
      · exact .float (matches_signed.2 ⟨body, unsigned, .inl rfl⟩)
      · refine Within.forall_mem ?_ unsigned
        simp_all [digits, Pattern.all, Pattern.opt, Pattern.some, Pattern.Within, oneOf, char,
          symbols]
  | date matched =>
      refine ⟨s, .inl rfl, .of_leads date_leads matched, .date matched, ?_⟩
      refine Within.forall_mem ?_ matched
      simp_all [Numeral.date, Pattern.all, Pattern.Within, char, symbols]
  | duration matched =>
      obtain ⟨body, unsigned, spelled⟩ := matches_signed.1 matched
      refine ⟨body, spelled, unsigned_of_days unsigned, ?_, ?_⟩
      · exact .duration (matches_signed.2 ⟨body, unsigned, .inl rfl⟩)
      · refine Within.forall_mem ?_ unsigned
        simp_all [digits, seconds, Pattern.all, Pattern.opt, Pattern.some, Pattern.Within, char,
          symbols]

/-! ## The scanner on a numeral -/

theorem ne_of_digit {c a : Char} (digit : isDecimalDigit c) (noDigit : isDecimalDigit a = false) :
    c ≠ a := by
  rintro rfl
  rw [noDigit] at digit
  contradiction

/-- A numeral consists of numeral characters, if it is an ASCII text without a sign. -/
theorem Denotes.numeralChars {kind : TokenKind} {s : List Char} (denotes : Denotes kind s)
    (ascii : ∀ c ∈ s, c.toNat < 0x80) :
    ∃ body, (s = body ∨ s = '-' :: body) ∧ Unsigned kind body ∧ Denotes kind body ∧
      ∀ c ∈ body, isNumeralChar c := by
  have fixed : (symbols kind).all isNumeralChar = true := by
    cases denotes <;> rfl
  obtain ⟨body, spelled, unsigned, denotes, plain⟩ :=
    denotes.exists_body (P := fun c => c.toNat < 0x80 → isNumeralChar c)
      (by
        intro c digit ascii
        simp [isNumeralChar, Char.isAlphanum, isDigit_of_isDecimalDigit ascii digit])
      (fun c member _ => List.all_eq_true.1 fixed c member)
  refine ⟨body, spelled, unsigned, denotes, fun c member => plain c member (ascii c ?_)⟩
  rcases spelled with rfl | rfl
  · exact member
  · exact List.mem_cons_of_mem _ member

/-- A slash tells dates, and a colon durations, from all other numerals. -/
theorem Denotes.notMem {kind : TokenKind} {s : List Char} (denotes : Denotes kind s) {a : Char}
    (noDigit : isDecimalDigit a = false) (noSign : a ≠ '-') (absent : a ∉ symbols kind) :
    a ∉ s := by
  obtain ⟨body, spelled, -, -, all⟩ := denotes.exists_body (P := (· ≠ a))
    (fun c digit => ne_of_digit digit noDigit)
    (fun c member same => absent (same ▸ member))
  intro member
  rcases spelled with rfl | rfl
  · exact all a member rfl
  · rcases List.mem_cons.1 member with same | member
    · exact noSign same
    · exact all a member rfl

theorem date_needs : Numeral.date.Needs '/' := by
  simp [Numeral.date, Pattern.all, Pattern.Needs, char]

theorem duration_needs : Numeral.duration.Needs ':' := by
  simp [Numeral.duration, Pattern.all, Pattern.Needs, char]

/-- **The scanner finds the kind of a numeral** and reaches over it, unless it goes on behind
it. -/
theorem Denotes.numeral_eq {kind : TokenKind} {c : Char} {s next : List Char}
    (denotes : Denotes kind (c :: s)) (all : ∀ a ∈ s, isNumeralChar a)
    (ends : ∀ a ∈ next.head?, isNumeralChar a = false)
    (noTime : kind = .date → timeOfDay.longest next = none) :
    Piece.numeral c (s ++ next) = (kind, s.length) := by
  have noDate (absent : '/' ∉ symbols kind) : Numeral.date.accepts (c :: s) = false :=
    date_needs.accepts_eq_false (denotes.notMem (by decide) (by decide) absent)
  have noDuration (absent : ':' ∉ symbols kind) : Numeral.duration.accepts (c :: s) = false :=
    duration_needs.accepts_eq_false (denotes.notMem (by decide) (by decide) absent)
  unfold Piece.numeral
  simp only [Piece.run_append all ends, List.take_left, List.drop_left]
  cases denotes with
  | integer | float => simp [noDate (by decide), noDuration (by decide)]
  | date matched => simp [(accepts_iff_matches _ _).2 matched, noTime rfl]
  | duration matched => simp [noDate (by decide), (accepts_iff_matches _ _).2 matched]

end Numeral

end PackageRecipe.Sdl
