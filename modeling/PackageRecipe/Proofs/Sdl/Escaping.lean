import Mathlib
import PackageRecipe.Proofs.Sdl.Placement

/-!
# Where escapes end

A double-quoted string is read twice: the scanner looks for its closing quote, and
`Escape.decode` reads what stands before it.  This file compares where the two see an escape
end.

## Main Definitions

* `Escape.Place.after` — where `Escape.decodeFrom` stands after some characters
* `Escape.Closed` — a body that the decoder reads without meeting a bare quote, and not up to a
  lone backslash
* `Escape.PairsReturns` — a body in which the scanner and the decoder see the same escapes
* `Escape.Reading` — what a body stands for, escape by escape

## Design Notes

Behind a backslash the scanner takes a carriage return together with the character behind it, as
it does with the two characters of a line end.  The decoder takes the carriage return by itself,
and then skips blanks.  So the two part only where that character is no blank: a quote there does
not close the string for the scanner, and a backslash there begins no escape for it
(`Token.not_closed_body_of_return`).  Every other body is closed: `Token.closed_body`.
-/

namespace PackageRecipe.Sdl

open PackageRecipe.Text

namespace Escape

/-! ## The places of the decoder -/

/-- The place behind a character. -/
def Place.step : Place → Char → Place
  | .body, c => if c = '\\' then .escape else .body
  | .escape, c => if c = '\r' ∨ c = '\n' then .indent else .body
  | .indent, c => if isBlank c then .indent else if c = '\\' then .escape else .body

/-- What a character is decoded to when it is met at a place. -/
def Place.output : Place → Char → List Char
  | .body, c => if c = '\\' then [] else [c]
  | .escape, c => if c = '\r' ∨ c = '\n' then [] else [escaped c]
  | .indent, c => if isBlank c ∨ c = '\\' then [] else [c]

/-- The place behind some characters. -/
def Place.after (p : Place) (cs : List Char) : Place :=
  cs.foldl Place.step p

/-- The decoder goes from place to place. -/
theorem decodeFrom_cons (p : Place) (c : Char) (r : List Char) :
    decodeFrom p (c :: r) = p.output c ++ decodeFrom (p.step c) r := by
  cases p <;> simp only [decodeFrom, Place.output, Place.step] <;> grind

@[simp] theorem Place.after_nil (p : Place) : p.after [] = p := rfl

@[simp] theorem Place.after_cons (p : Place) (c : Char) (cs : List Char) :
    p.after (c :: cs) = (p.step c).after cs := rfl

/-- Blanks and backslashes apart, every character is read alike in a body and behind an escaped
line end. -/
theorem Place.step_ne_escape {p : Place} (ready : p ≠ .escape) {c : Char} (plain : c ≠ '\\') :
    p.step c ≠ .escape := by
  cases p <;> simp only [Place.step] <;> grind

theorem Place.step_backslash {p : Place} (ready : p ≠ .escape) : p.step '\\' = .escape := by
  cases p
  · rfl
  · exact absurd rfl ready
  · rfl

theorem Place.step_escape_ne (c : Char) : Place.escape.step c ≠ .escape := by
  simp only [Place.step]
  grind

/-! ## Reading a body escape by escape -/

/-- The letters that stand for other characters behind a backslash. -/
def letters : List (Char × Char) :=
  [('n', '\n'), ('t', '\t'), ('r', '\r')]

/-- What the body of a string stands for.  A backslash at the end of a line joins it to the next
one without the blanks in between, and one at the end of the body stands for itself. -/
inductive Reading : List Char → List Char → Prop where
  | done : Reading [] []
  | lone : Reading ['\\'] ['\\']
  | plain {c : Char} {body text : List Char} : c ≠ '\\' → Reading body text →
      Reading (c :: body) (c :: text)
  | letter {c d : Char} {body text : List Char} : (c, d) ∈ letters → Reading body text →
      Reading ('\\' :: c :: body) (d :: text)
  | other {c : Char} {body text : List Char} : c ∉ letters.map Prod.fst → c ≠ '\r' → c ≠ '\n' →
      Reading body text → Reading ('\\' :: c :: body) (c :: text)
  | joined {c : Char} {blanks body text : List Char} : c = '\r' ∨ c = '\n' →
      (∀ b ∈ blanks, isBlank b = true) → (∀ b ∈ body.head?, isBlank b = false) →
        Reading body text → Reading ('\\' :: c :: (blanks ++ body)) text

theorem escaped_of_mem_letters {c d : Char} (known : (c, d) ∈ letters) :
    ¬ (c = '\r' ∨ c = '\n') ∧ escaped c = d := by
  simp only [letters, List.mem_cons, Prod.mk.injEq, List.not_mem_nil, or_false] at known
  rcases known with ⟨rfl, rfl⟩ | ⟨rfl, rfl⟩ | ⟨rfl, rfl⟩ <;> decide

theorem escaped_of_notMem_letters {c : Char} (unknown : c ∉ letters.map Prod.fst) :
    escaped c = c := by
  unfold escaped
  split <;> simp_all [letters]

/-- Behind an escaped line end the blanks are left out. -/
theorem decodeFrom_indent (body : List Char) :
    decodeFrom .indent body = decode (body.dropWhile isBlank) := by
  induction body with
  | nil => rfl
  | cons c body ih =>
      rw [decodeFrom, List.dropWhile_cons, ih, decode, decode]
      split
      · rfl
      · rw [decodeFrom]

/-- The decoder reads a body escape by escape. -/
theorem reading_decode (body : List Char) : Reading body (decode body) := by
  induction size : body.length using Nat.strong_induction_on generalizing body with
  | _ n ih =>
      subst size
      rcases body with _ | ⟨c, body⟩
      · exact .done
      by_cases plain : c = '\\'
      · subst plain
        rcases body with _ | ⟨c, body⟩
        · exact .lone
        have here : decode ('\\' :: c :: body) =
            if c = '\r' ∨ c = '\n' then decodeFrom .indent body
            else escaped c :: decode body := rfl
        rw [here]
        split_ifs with ends
        · -- The blanks behind an escaped line end are skipped at once.
          have shorter := (List.dropWhile_suffix isBlank (l := body)).length_le
          have rest := ih _ (by simp only [List.length_cons]; omega) (body.dropWhile isBlank) rfl
          have blank : ∀ b ∈ body.takeWhile isBlank, isBlank b = true :=
            fun b => List.mem_takeWhile_imp
          have first : ∀ b ∈ (body.dropWhile isBlank).head?, isBlank b = false := by
            intro b begins
            have stops := List.head?_dropWhile_not isBlank body
            rw [Option.mem_def.1 begins] at stops
            exact stops
          rw [decodeFrom_indent]
          have joined := Reading.joined ends blank first rest
          rwa [List.takeWhile_append_dropWhile] at joined
        · have rest := ih _ (by simp only [List.length_cons]; omega) body rfl
          by_cases known : c ∈ letters.map Prod.fst
          · obtain ⟨⟨c, d⟩, letter, rfl⟩ := List.mem_map.1 known
            rw [(escaped_of_mem_letters letter).2]
            exact .letter letter rest
          · rw [not_or] at ends
            rw [escaped_of_notMem_letters known]
            exact .other known ends.1 ends.2 rest
      · have here : decode (c :: body) = c :: decode body := by
          rw [decode, decodeFrom, if_neg plain, decode]
        rw [here]
        exact .plain plain (ih _ (by simp) body rfl)

/-- **A body stands for what the decoder makes of it**, and for nothing else. -/
theorem reading_iff {body text : List Char} : Reading body text ↔ decode body = text := by
  refine ⟨fun reading => ?_, fun same => same ▸ reading_decode body⟩
  induction reading with
  | done => rfl
  | lone => rfl
  | plain plain _ ih => rw [decode, decodeFrom, if_neg plain, ← decode, ih]
  | letter known _ ih =>
      obtain ⟨goesOn, same⟩ := escaped_of_mem_letters known
      rw [decode, decodeFrom, if_pos rfl, decodeFrom, if_neg goesOn, same, ← decode, ih]
  | other unknown return_ feed _ ih =>
      rw [decode, decodeFrom, if_pos rfl, decodeFrom, if_neg (not_or.2 ⟨return_, feed⟩),
        escaped_of_notMem_letters unknown, ← decode, ih]
  | @joined c blanks body text ends blank first _ ih =>
      rw [decode, decodeFrom, if_pos rfl, decodeFrom, if_pos ends, decodeFrom_indent,
        List.dropWhile_append_of_pos blank]
      cases body with
      | nil => exact ih
      | cons b body => rwa [List.dropWhile_cons_of_neg (by simp [first b rfl])]

/-! ## Bodies in which all escapes are whole -/

/-- What the decoder finds in a body when it begins at a place. -/
structure ClosedFrom (p : Place) (body : List Char) : Prop where
  /-- Each quote is the character behind a backslash. -/
  quotes : ∀ before rest, body = before ++ '"' :: rest → p.after before = .escape
  /-- No backslash is left alone at the end. -/
  ends : p.after body ≠ .escape

/-- A body that the decoder reads without meeting a quote that is not escaped, and that does not
end on a lone backslash. -/
def Closed (body : List Char) : Prop :=
  ClosedFrom .body body

/-- A carriage return that is met as an escaped character is not followed by a quote or a
backslash. -/
def PairsReturnsFrom (p : Place) (body : List Char) : Prop :=
  ∀ before c rest, body = before ++ '\r' :: c :: rest → p.after before = .escape →
    c ≠ '"' ∧ c ≠ '\\'

/-- No quote and no backslash stands directly behind an escaped carriage return. -/
def PairsReturns (body : List Char) : Prop :=
  PairsReturnsFrom .body body

theorem closedFrom_nil_iff {p : Place} : ClosedFrom p [] ↔ p ≠ .escape :=
  ⟨ClosedFrom.ends, fun ready => ⟨by simp, ready⟩⟩

theorem closedFrom_cons_iff {p : Place} {c : Char} {body : List Char} :
    ClosedFrom p (c :: body) ↔ (c = '"' → p = .escape) ∧ ClosedFrom (p.step c) body := by
  constructor
  · intro closed
    refine ⟨?_, ?_, closed.ends⟩
    · rintro rfl
      exact closed.quotes [] body rfl
    · intro before rest same
      exact closed.quotes (c :: before) rest (by rw [same, List.cons_append])
  · rintro ⟨head, tail⟩
    refine ⟨?_, tail.ends⟩
    intro before rest same
    cases before with
    | nil => exact head (List.cons.inj same).1
    | cons d before =>
        obtain ⟨rfl, behind⟩ := List.cons.inj same
        exact tail.quotes before rest behind

theorem pairsReturnsFrom_nil (p : Place) : PairsReturnsFrom p [] := by
  simp [PairsReturnsFrom]

theorem pairsReturnsFrom_cons_iff {p : Place} {c : Char} {body : List Char} :
    PairsReturnsFrom p (c :: body) ↔
      (c = '\r' → p = .escape → body.head? ≠ some '"' ∧ body.head? ≠ some '\\') ∧
        PairsReturnsFrom (p.step c) body := by
  constructor
  · intro pairs
    constructor
    · rintro rfl escape
      cases body with
      | nil => simp
      | cons d rest => simpa using pairs [] d rest rfl escape
    · intro before d rest same escape
      exact pairs (c :: before) d rest (by rw [same, List.cons_append]) escape
  · rintro ⟨head, tail⟩ before d rest same escape
    cases before with
    | nil =>
        obtain ⟨rfl, rfl⟩ := List.cons.inj same
        simpa using head rfl escape
    | cons e before =>
        obtain ⟨rfl, behind⟩ := List.cons.inj same
        exact tail before d rest behind escape

instance decidableClosedFrom : (p : Place) → (body : List Char) → Decidable (ClosedFrom p body)
  | _, [] => decidable_of_iff _ closedFrom_nil_iff.symm
  | p, c :: body =>
    have := decidableClosedFrom (p.step c) body
    decidable_of_iff _ closedFrom_cons_iff.symm

instance decidablePairsReturnsFrom :
    (p : Place) → (body : List Char) → Decidable (PairsReturnsFrom p body)
  | p, [] => .isTrue (pairsReturnsFrom_nil p)
  | p, c :: body =>
    have := decidablePairsReturnsFrom (p.step c) body
    decidable_of_iff _ pairsReturnsFrom_cons_iff.symm

instance (body : List Char) : Decidable (Closed body) :=
  inferInstanceAs (Decidable (ClosedFrom _ _))

instance (body : List Char) : Decidable (PairsReturns body) :=
  inferInstanceAs (Decidable (PairsReturnsFrom _ _))

/-! ## The scanner beside the decoder -/

/-- A string that is closed holds its closing quote. -/
theorem exists_quoted_eq (s : List Char) (closed : (Piece.quoted s).2 = true) :
    ∃ n, Piece.quoted s = (n + 1, true) := by
  induction s using Piece.quoted_induction with
  | empty | feed | lone | loneReturn => simp [Piece.quoted] at closed
  | quote r => exact ⟨0, rfl⟩
  | pair d r ih =>
      obtain ⟨n, same⟩ := ih (by simpa [Piece.quoted] using closed)
      exact ⟨n + 3, by simp [Piece.quoted, same]⟩
  | escape d r noReturn ih =>
      rw [Piece.quoted_escape noReturn] at closed ⊢
      obtain ⟨n, same⟩ := ih closed
      exact ⟨n + 2, by rw [same]⟩
  | plain d r plain ih =>
      rw [Piece.quoted_plain plain] at closed ⊢
      obtain ⟨n, same⟩ := ih closed
      exact ⟨n + 1, by rw [same]⟩

/-- The last character of a string that is closed is its closing quote. -/
theorem take_of_quoted {s : List Char} {n : Nat} (closed : Piece.quoted s = (n + 1, true)) :
    s.take (n + 1) = s.take n ++ ['"'] := by
  induction s using Piece.quoted_induction generalizing n with
  | empty | feed | lone | loneReturn => simp [Piece.quoted] at closed
  | quote r =>
      obtain rfl : n = 0 := by simpa [Piece.quoted] using closed.symm
      rfl
  | pair d r ih =>
      obtain ⟨m, rest⟩ := exists_quoted_eq r (congrArg Prod.snd closed)
      obtain rfl : n = m + 3 := by simpa [Piece.quoted, rest] using closed.symm
      simp only [List.take_succ_cons, ih rest, List.cons_append]
  | escape d r noReturn ih =>
      rw [Piece.quoted_escape noReturn] at closed
      obtain ⟨m, rest⟩ := exists_quoted_eq r (congrArg Prod.snd closed)
      obtain rfl : n = m + 2 := by simpa [rest] using closed.symm
      simp only [List.take_succ_cons, ih rest, List.cons_append]
  | plain d r plain ih =>
      rw [Piece.quoted_plain plain] at closed
      obtain ⟨m, rest⟩ := exists_quoted_eq r (congrArg Prod.snd closed)
      obtain rfl : n = m + 1 := by simpa [rest] using closed.symm
      simp only [List.take_succ_cons, ih rest, List.cons_append]

/-- What the scanner takes for the body of a string is closed for the decoder, if the decoder
begins in a place in which no escape is open.  The induction follows the scanner, at each escape
as a whole, so no escape is open for the decoder either. -/
theorem closedFrom_take_of_quoted (s : List Char) {p : Place} {n : Nat} (ready : p ≠ .escape)
    (closed : Piece.quoted s = (n + 1, true)) (pairs : PairsReturnsFrom p (s.take n)) :
    ClosedFrom p (s.take n) := by
  induction s using Piece.quoted_induction generalizing p n with
  | empty | feed | lone | loneReturn => simp [Piece.quoted] at closed
  | quote r =>
      obtain rfl : n = 0 := by simpa [Piece.quoted] using closed.symm
      exact closedFrom_nil_iff.2 ready
  | pair d r ih =>
      have whole := congrArg Prod.snd closed
      obtain ⟨m, rest⟩ := exists_quoted_eq r whole
      obtain rfl : n = m + 3 := by simpa [Piece.quoted, rest] using closed.symm
      rw [List.take_succ_cons, List.take_succ_cons, List.take_succ_cons] at pairs ⊢
      have opened : p.step '\\' = .escape := Place.step_backslash ready
      obtain ⟨noQuote, noBackslash⟩ := pairs ['\\'] d (r.take m) rfl opened
      have behind : ((p.step '\\').step '\r').step d ≠ .escape := by
        rw [opened]
        exact Place.step_ne_escape (Place.step_escape_ne _) noBackslash
      simp only [closedFrom_cons_iff, pairsReturnsFrom_cons_iff] at pairs ⊢
      refine ⟨by simp, by simp, fun quote => absurd quote noQuote, ?_⟩
      exact ih behind rest pairs.2.2.2
  | escape d r noReturn ih =>
      rw [Piece.quoted_escape noReturn] at closed
      obtain ⟨m, rest⟩ := exists_quoted_eq r (congrArg Prod.snd closed)
      obtain rfl : n = m + 2 := by simpa [rest] using closed.symm
      rw [List.take_succ_cons, List.take_succ_cons] at pairs ⊢
      have opened : p.step '\\' = .escape := Place.step_backslash ready
      simp only [closedFrom_cons_iff, pairsReturnsFrom_cons_iff] at pairs ⊢
      refine ⟨by simp, fun _ => opened, ?_⟩
      exact ih (opened ▸ Place.step_escape_ne d) rest pairs.2.2
  | plain d r plain ih =>
      rw [Piece.quoted_plain plain] at closed
      obtain ⟨m, rest⟩ := exists_quoted_eq r (congrArg Prod.snd closed)
      obtain rfl : n = m + 1 := by simpa [rest] using closed.symm
      rw [List.take_succ_cons] at pairs ⊢
      simp only [List.mem_cons, List.not_mem_nil, or_false, not_or] at plain
      refine closedFrom_cons_iff.2 ⟨fun quote => absurd quote plain.2.1, ?_⟩
      exact ih (Place.step_ne_escape ready plain.2.2) rest (pairsReturnsFrom_cons_iff.1 pairs).2

end Escape

namespace Token

/-- The scanner read the body of a closed double-quoted string behind its opening quote. -/
theorem Lexed.quoted {t : Token} (lexed : t.Lexed) (kind : t.kind = .string false true) :
    ∃ s n, Piece.quoted s = (n + 1, true) ∧ Token.body true t.text = s.take n := by
  obtain ⟨c, s, m, begun, text⟩ := lexed
  have reach := begun.le_length
  rw [kind] at begun
  obtain ⟨-, scanned⟩ := begun.eq_string
  rw [if_neg (by decide)] at scanned
  obtain ⟨n, closed⟩ := Escape.exists_quoted_eq s (by rw [← scanned])
  obtain rfl : m = n + 1 := congrArg Prod.fst (scanned.trans closed)
  refine ⟨s, n, closed, ?_⟩
  rw [body, if_pos rfl, text, List.tail_cons, List.dropLast_eq_take, List.length_take,
    Nat.min_eq_left reach, Nat.add_sub_cancel, List.take_take, Nat.min_eq_left (Nat.le_succ n)]

/-- **The scanner and the decoder agree on where escapes end.**  In the body of every
double-quoted string that is closed, the decoder meets no quote that is not escaped and no
backslash that is left alone at the end, if what follows an escaped carriage return is neither a
quote nor a backslash. -/
theorem closed_body (text : List Char) {t : Token} (member : t ∈ (Lexing.ofText text).tokens)
    (kind : t.kind = .string false true) (pairs : Escape.PairsReturns (body true t.text)) :
    Escape.Closed (body true t.text) := by
  obtain ⟨s, n, scanned, read⟩ := ((Lexing.placed_tokens text).lexed t member).quoted kind
  rw [read] at pairs ⊢
  exact Escape.closedFrom_take_of_quoted s (by simp) scanned pairs

/-- A line end of two characters, with an escaped quote behind the blanks. -/
theorem closed_body_of_continuation :
    let t : Token := ⟨.string false true, "\"a\\\r\n \\\"b\"".toList, [], 0⟩
    t ∈ (Lexing.ofText "\"a\\\r\n \\\"b\"".toList).tokens ∧
      Escape.PairsReturns (body true t.text) ∧ Escape.Closed (body true t.text) := by
  intro t
  have member : t ∈ (Lexing.ofText "\"a\\\r\n \\\"b\"".toList).tokens := by
    have same : (Lexing.ofText "\"a\\\r\n \\\"b\"".toList).tokens = [t] := by cbv
    rw [same]
    exact List.mem_singleton_self t
  have pairs : Escape.PairsReturns (body true t.text) := by decide
  exact ⟨member, pairs, closed_body _ member rfl pairs⟩

/-- The scanner takes a quote along with an escaped carriage return.  The decoder meets it as a
bare quote. -/
theorem not_closed_body_of_return :
    ∃ t ∈ (Lexing.ofText "\"a\\\r\"b\"".toList).tokens, t.kind = .string false true ∧
      ¬ Escape.Closed (body true t.text) := by
  have same : (Lexing.ofText "\"a\\\r\"b\"".toList).tokens =
      [⟨.string false true, "\"a\\\r\"b\"".toList, [], 0⟩] := by cbv
  rw [same]
  exact ⟨_, List.mem_singleton_self _, rfl, by decide⟩

end Token

end PackageRecipe.Sdl
