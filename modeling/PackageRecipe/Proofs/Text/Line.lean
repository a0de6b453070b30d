import Mathlib.Data.List.TakeWhile
import PackageRecipe.Proofs.Text.Position
import PackageRecipe.Proofs.Text.Row

/-!
# Positions on lines

An editor sends back the positions that it was shown.  Each place of a text where a caret may
stand has a position of its own, from which the place is found again, if its numbers fit.  A
column behind the end of its line is cut down to that end.

## Main Definitions

* `lineContent`, `lineBreak` — the two parts of a line
* `Lined` — a text that falls into lines
* `Caret` — a place between two characters that is not inside of a line break

## Design Notes

The lines of a text are found character by character, and so is a place.  Both are read
here line by line: `lined_lines` gives the lines with their parts, and all else is an induction
on `Lined` with one lemma for the content of a line (`locate_append_unbroken`) and one for its
break (`locate_append_break`).

A cursor is kept in front of a line break by dropping line feeds and carriage returns, although
there are five more characters that end a line.  So the clipped line is the content of the line
only if its break is `Clipped` (`clipLine_eq`).

What is shown of places is carried over to positions at the end.  A place with a number that does
not fit is lost on the way, since the number that is left names a line or a column too far in
front (`Position.fits_of_toOffset?`).
-/

namespace PackageRecipe.Text

/-! ## The parts of a line -/

/-- What a line may end with. -/
def lineBreaks : List (List Char) :=
  [['\n'], ['\r', '\n'], ['\r'], ['\x0b'], ['\x0c'], ['\u0085'], ['\u2028'], ['\u2029']]

/-- A character of a line break. -/
def isBreakChar (c : Char) : Bool :=
  isLineBreak c || c == '\r'

/-- Characters of which none belongs to a line break. -/
def Unbroken (cs : List Char) : Prop :=
  ∀ c ∈ cs, isBreakChar c = false

/-- What stands on a line in front of its line break. -/
def lineContent (line : List Char) : List Char :=
  line.takeWhile (!isBreakChar ·)

/-- The line break at the end of a line. -/
def lineBreak (line : List Char) : List Char :=
  line.dropWhile (!isBreakChar ·)

/-- A line break of line feeds and carriage returns, or none. -/
def Clipped (brk : List Char) : Prop :=
  ∀ c ∈ brk, c = '\n' ∨ c = '\r'

instance (brk : List Char) : Decidable (Clipped brk) :=
  inferInstanceAs (Decidable (∀ c ∈ brk, c = '\n' ∨ c = '\r'))

section Parts

variable {body brk line cs rest : List Char} {c : Char}

theorem lineContent_append_lineBreak (line : List Char) :
    lineContent line ++ lineBreak line = line :=
  List.takeWhile_append_dropWhile

theorem unbroken_lineContent (line : List Char) : Unbroken (lineContent line) := by
  intro c member
  simpa using List.mem_takeWhile_imp member

theorem Unbroken.take (unbroken : Unbroken body) (j : Nat) : Unbroken (body.take j) :=
  fun c member => unbroken c (List.mem_of_mem_take member)

theorem unbroken_cons : Unbroken (c :: cs) ↔ isBreakChar c = false ∧ Unbroken cs :=
  List.forall_mem_cons

/-- A line break is a single character of a line break, or a carriage return and a line feed. -/
theorem mem_lineBreaks_iff :
    brk ∈ lineBreaks ↔ brk = ['\r', '\n'] ∨ ∃ c, isBreakChar c = true ∧ brk = [c] := by
  constructor
  · intro known
    simp only [lineBreaks, List.mem_cons, List.not_mem_nil, or_false] at known
    rcases known with rfl | rfl | rfl | rfl | rfl | rfl | rfl | rfl <;>
      simp [isBreakChar, isLineBreak]
  · rintro (rfl | ⟨c, breaks, rfl⟩)
    · decide
    · simp only [isBreakChar, isLineBreak, Bool.or_eq_true, beq_iff_eq] at breaks
      rcases breaks with (((((rfl | rfl) | rfl) | rfl) | rfl) | rfl) | rfl <;> decide

/-- A line ends with each character of a line break but the carriage return in front of a line
feed. -/
theorem endsLine_iff :
    endsLine c rest = true ↔ isBreakChar c = true ∧ (c = '\r' → rest.head? ≠ some '\n') := by
  by_cases carriage : c = '\r'
  · subst carriage
    simp [endsLine, isBreakChar, isLineBreak]
  · simp [endsLine, isBreakChar, carriage]

theorem parts_append (unbroken : Unbroken body) (known : brk ∈ [] :: lineBreaks) :
    lineContent (body ++ brk) = body ∧ lineBreak (body ++ brk) = brk := by
  have all : ∀ c ∈ body, (!isBreakChar c) = true := fun c member => by simp [unbroken c member]
  rw [lineContent, lineBreak, List.takeWhile_append_of_pos all, List.dropWhile_append_of_pos all]
  rw [List.mem_cons, mem_lineBreaks_iff] at known
  rcases known with rfl | rfl | ⟨c, breaks, rfl⟩
  · simp
  · simp [isBreakChar]
  · simp [breaks]

theorem parts_of_unbroken (unbroken : Unbroken body) :
    lineContent body = body ∧ lineBreak body = [] := by
  simpa using parts_append unbroken List.mem_cons_self

/-- Clipping goes no further than the line break. -/
theorem dropWhile_reverse_of_unbroken (unbroken : Unbroken body) :
    (body.reverse.dropWhile fun c => c == '\n' || c == '\r') = body.reverse := by
  cases last : body.reverse with
  | nil => rfl
  | cons c r =>
      have free := unbroken c (List.mem_reverse.1 (last ▸ List.mem_cons_self))
      simp only [isBreakChar, isLineBreak, Bool.or_eq_false_iff] at free
      exact List.dropWhile_cons_of_neg (by simp [free])

/-- What is left of a line by clipping it. -/
theorem clipLine_eq (known : lineBreak line ∈ [] :: lineBreaks) :
    clipLine line = if Clipped (lineBreak line) then lineContent line else line := by
  have whole := lineContent_append_lineBreak line
  have clip := dropWhile_reverse_of_unbroken (unbroken_lineContent line)
  generalize lineContent line = body at *
  generalize lineBreak line = brk at *
  subst whole
  rw [List.mem_cons, mem_lineBreaks_iff] at known
  rcases known with rfl | rfl | ⟨c, -, rfl⟩
  · simp [clipLine, Clipped, clip]
  · simp [clipLine, Clipped, clip]
  · by_cases clips : c = '\n' ∨ c = '\r'
    · simp [clipLine, Clipped, clip, clips]
    · simp [clipLine, Clipped, clips]

theorem length_of_not_clipped (known : brk ∈ [] :: lineBreaks) (kept : ¬ Clipped brk) :
    brk.length = 1 := by
  rw [List.mem_cons, mem_lineBreaks_iff] at known
  rcases known with rfl | rfl | ⟨c, -, rfl⟩
  · simp [Clipped] at kept
  · simp [Clipped] at kept
  · rfl

/-- A line that begins with a line feed has nothing else on it. -/
theorem feed_of_head (known : brk ∈ lineBreaks) (unbroken : Unbroken body)
    (feed : (body ++ brk ++ rest).head? = some '\n') : body = [] ∧ brk = ['\n'] := by
  cases body with
  | cons c body =>
      obtain rfl : c = '\n' := by simpa using feed
      cases (unbroken_cons.1 unbroken).1
  | nil =>
      rcases mem_lineBreaks_iff.1 known with rfl | ⟨c, -, rfl⟩
      · simp at feed
      · simpa using feed

/-- A line that ends in a carriage return ends with no line feed. -/
theorem eq_of_getLast? (known : brk ∈ lineBreaks) (last : (body ++ brk).getLast? = some '\r') :
    brk = ['\r'] := by
  rcases mem_lineBreaks_iff.1 known with rfl | ⟨c, -, rfl⟩
  · simp at last
  · simpa using last

/-- Only a carriage return with its line feed can be cut in two. -/
theorem cut_lineBreak {x y : List Char} (known : x ++ y ∈ lineBreaks) :
    x = [] ∨ y = [] ∨ x = ['\r'] ∧ y = ['\n'] := by
  rcases mem_lineBreaks_iff.1 known with pair | ⟨c, -, single⟩
  · cases x with
    | nil => exact .inl rfl
    | cons a x =>
        obtain ⟨rfl, same⟩ := List.cons.inj pair
        rcases List.append_eq_singleton_iff.1 same with ⟨rfl, rfl⟩ | ⟨rfl, rfl⟩
        · exact .inr (.inr ⟨rfl, rfl⟩)
        · exact .inr (.inl rfl)
  · rcases List.append_eq_singleton_iff.1 single with ⟨none, -⟩ | ⟨-, none⟩
    · exact .inl none
    · exact .inr (.inl none)

end Parts

/-! ## The lines of a text -/

/-- A text that falls into lines.  A carriage return in front of a line feed is no line break by
itself. -/
inductive Lined : List Char → List (List Char) → Prop where
  | last {body : List Char} : Unbroken body → Lined body [body]
  | next {body brk rest : List Char} {ls : List (List Char)} :
      Unbroken body → brk ∈ lineBreaks → (brk = ['\r'] → rest.head? ≠ some '\n') →
        Lined rest ls → Lined ((body ++ brk) ++ rest) ((body ++ brk) :: ls)

/-- A text falls into its lines. -/
theorem lined_lines (text : List Char) : Lined text (lines text) := by
  induction text with
  | nil => exact .last (by simp [Unbroken])
  | cons c r ih =>
      have empty : Unbroken [] := by simp [Unbroken]
      rw [lines]
      by_cases ends : endsLine c r
      · obtain ⟨breaks, apart⟩ := endsLine_iff.1 ends
        rw [if_pos ends]
        exact @Lined.next [] [c] r _ empty (mem_lineBreaks_iff.2 (.inr ⟨c, breaks, rfl⟩))
          (fun same => apart (List.singleton_inj.1 same)) ih
      · rw [if_neg ends]
        generalize lines r = ls at ih
        by_cases breaks : isBreakChar c
        · -- A carriage return, and the line that follows has nothing but a line feed.
          obtain ⟨rfl, feed⟩ : c = '\r' ∧ r.head? = some '\n' := by
            simpa [endsLine_iff, breaks] using ends
          cases ih with
          | last unbroken => cases unbroken _ (List.mem_of_mem_head? feed)
          | @next body brk rest ls unbroken known _ below =>
              obtain ⟨rfl, rfl⟩ := feed_of_head known unbroken feed
              exact @Lined.next [] ['\r', '\n'] rest ls empty (by decide) (by simp) below
        · have free : isBreakChar c = false := Bool.eq_false_iff.2 breaks
          cases ih with
          | last unbroken => exact .last (unbroken_cons.2 ⟨free, unbroken⟩)
          | next unbroken known apart below =>
              exact .next (unbroken_cons.2 ⟨free, unbroken⟩) known apart below

/-- The lines of a text end in line breaks, or in nothing. -/
theorem Lined.parts {text line : List Char} {ls : List (List Char)} (lined : Lined text ls)
    (member : line ∈ ls) : lineBreak line ∈ [] :: lineBreaks := by
  induction lined with
  | last unbroken =>
      obtain rfl := List.mem_singleton.1 member
      rw [(parts_of_unbroken unbroken).2]
      exact List.mem_cons_self
  | next unbroken known _ _ ih =>
      rcases List.mem_cons.1 member with rfl | member
      · rw [(parts_append unbroken (List.mem_cons_of_mem _ known)).2]
        exact List.mem_cons_of_mem _ known
      · exact ih member

/-- Behind a line break there is another line. -/
theorem Lined.succ_lt_length {text line : List Char} {ls : List (List Char)} (lined : Lined text ls)
    {i : Nat} (found : ls[i]? = some line) (ended : lineBreak line ≠ []) : i + 1 < ls.length := by
  induction lined generalizing i with
  | last unbroken =>
      obtain ⟨rfl, rfl⟩ : i = 0 ∧ _ := by simpa [List.getElem?_singleton] using found
      exact absurd (parts_of_unbroken unbroken).2 ended
  | @next body brk rest ls _ _ _ below ih =>
      cases i with
      | zero =>
          have nonempty : ls ≠ [] := by cases below <;> simp
          simpa using List.length_pos_iff.2 nonempty
      | succ i => simpa using ih (by simpa using found)

/-! ## The positions on a line -/

namespace Place

variable {body brk rest text line : List Char} {ls : List (List Char)}

/-- On a line the column is counted. -/
theorem locate_append_unbroken (unbroken : Unbroken body) (p : Place) (o : Nat)
    (rest : List Char) :
    p.locate (width body + o) (body ++ rest) =
      (⟨p.line, p.column + body.length⟩ : Place).locate o rest := by
  induction body generalizing p with
  | nil => simp
  | cons c body ih =>
      obtain ⟨free, unbroken⟩ := unbroken_cons.1 unbroken
      have goesOn : endsLine c (body ++ rest) = false := by
        simp [Bool.eq_false_iff, endsLine_iff, free]
      rw [List.cons_append, width_cons, Nat.add_assoc, locate_cons, ih unbroken, advance, goesOn,
        List.length_cons]
      simp [Nat.add_assoc, Nat.add_comm 1]

/-- Behind a line break the next line begins. -/
theorem locate_append_break (known : brk ∈ lineBreaks)
    (apart : brk = ['\r'] → rest.head? ≠ some '\n') (p : Place) (o : Nat) :
    p.locate (width brk + o) (brk ++ rest) = (⟨p.line + 1, 0⟩ : Place).locate o rest := by
  rcases mem_lineBreaks_iff.1 known with rfl | ⟨c, breaks, rfl⟩
  · -- The carriage return goes on with the line, and the line feed ends it.
    rw [width_cons, Nat.add_assoc, List.cons_append, locate_cons, width_cons, width_nil,
      Nat.add_zero, List.singleton_append, locate_cons]
    rfl
  · have ends : endsLine c rest := endsLine_iff.2 ⟨breaks, fun same => apart (same ▸ rfl)⟩
    rw [width_cons, width_nil, Nat.add_zero, List.singleton_append, locate_cons, advance,
      if_pos ends]

theorem locate_append_line (unbroken : Unbroken body) (known : brk ∈ lineBreaks)
    (apart : brk = ['\r'] → rest.head? ≠ some '\n') (p : Place) (o : Nat) :
    p.locate (width (body ++ brk) + o) (body ++ brk ++ rest) =
      (⟨p.line + 1, 0⟩ : Place).locate o rest := by
  rw [width_append, Nat.add_assoc, List.append_assoc, locate_append_unbroken unbroken,
    locate_append_break known apart]

theorem locate_take (unbroken : Unbroken body) {j : Nat} (inside : j ≤ body.length) (k : Nat)
    (rest : List Char) :
    (⟨k, 0⟩ : Place).locate (width (body.take j)) (body ++ rest) = ⟨k, j⟩ := by
  have located := locate_append_unbroken (unbroken.take j) ⟨k, 0⟩ 0 (body.drop j ++ rest)
  rw [← List.append_assoc, List.take_append_drop, locate_zero, Nat.add_zero] at located
  rw [located, Nat.zero_add, List.length_take, Nat.min_eq_left inside]

/-- Where a place stands that is on a line of a text. -/
theorem locate_lined (lined : Lined text ls) {i j : Nat} (found : ls[i]? = some line)
    (inside : j ≤ (lineContent line).length) (k : Nat) :
    (⟨k, 0⟩ : Place).locate
      (width (ls.take i).flatten + width ((lineContent line).take j)) text = ⟨k + i, j⟩ := by
  induction lined generalizing i k with
  | @last body unbroken =>
      obtain ⟨rfl, rfl⟩ : i = 0 ∧ body = line := by
        simpa [List.getElem?_singleton, eq_comm] using found
      rw [(parts_of_unbroken unbroken).1] at inside ⊢
      simpa using locate_take unbroken inside k []
  | @next body brk rest ls unbroken known apart below ih =>
      cases i with
      | zero =>
          obtain rfl : body ++ brk = line := by simpa using found
          rw [(parts_append unbroken (List.mem_cons_of_mem _ known)).1] at inside ⊢
          rw [List.append_assoc]
          simpa using locate_take unbroken inside k (brk ++ rest)
      | succ i =>
          rw [List.take_succ_cons, List.flatten_cons, width_append, Nat.add_assoc,
            locate_append_line unbroken known apart, ih (by simpa using found) (k + 1),
            Nat.add_assoc, Nat.add_comm 1]

end Place

/-! ## The places of a caret -/

/-- A place where a caret may stand: between two characters or at an end of the text, but not
between a carriage return and the line feed that belongs to it. -/
def Caret (text : List Char) (o : Nat) : Prop :=
  ∃ before after, text = before ++ after ∧ o = width before ∧
    ¬ (before.getLast? = some '\r' ∧ after.head? = some '\n')

section Carets

variable {text body brk rest line : List Char} {ls : List (List Char)} {o : Nat}

theorem Caret.boundary (caret : Caret text o) : Boundary text o := by
  obtain ⟨before, after, spelled, place, -⟩ := caret
  exact ⟨before, after, spelled, place⟩

theorem Unbroken.getLast?_ne (unbroken : Unbroken body) : body.getLast? ≠ some '\r' := by
  intro last
  cases unbroken _ (List.mem_of_getLast? last)

theorem caret_unbroken (unbroken : Unbroken body) {j : Nat} (rest : List Char) :
    Caret (body ++ rest) (width (body.take j)) := by
  refine ⟨body.take j, body.drop j ++ rest, ?_, rfl, fun both => ?_⟩
  · rw [← List.append_assoc, List.take_append_drop]
  · exact (unbroken.take j).getLast?_ne both.1

/-- Inside of a line break there is no place for a caret. -/
theorem caret_append_iff (unbroken : Unbroken body) (known : brk ∈ lineBreaks)
    (apart : brk = ['\r'] → rest.head? ≠ some '\n') :
    Caret (body ++ brk ++ rest) o ↔
      (∃ j ≤ body.length, o = width (body.take j)) ∨
        ∃ o', Caret rest o' ∧ o = width (body ++ brk) + o' := by
  constructor
  · rintro ⟨before, after, spelled, rfl, whole⟩
    rw [List.append_assoc] at spelled
    -- The place is behind the line, in its line break, or in its content.
    rcases List.append_eq_append_iff.1 spelled with ⟨x, rfl, behind⟩ | ⟨x, rfl, -⟩
    · rcases List.append_eq_append_iff.1 behind with ⟨y, rfl, rfl⟩ | ⟨y, rfl, rfl⟩
      · have whole' : ¬ (y.getLast? = some '\r' ∧ after.head? = some '\n') := by
          rintro ⟨last, feed⟩
          refine whole ⟨?_, feed⟩
          rw [← List.append_assoc, List.getLast?_append, last, Option.some_or]
        exact .inr ⟨width y, ⟨y, after, rfl, rfl, whole'⟩, by simp [Nat.add_assoc]⟩
      · rcases cut_lineBreak known with rfl | rfl | ⟨rfl, rfl⟩
        · exact .inl ⟨body.length, Nat.le_refl _, by simp⟩
        · exact .inr ⟨0, ⟨[], rest, rfl, rfl, by simp⟩, by simp⟩
        · exact absurd ⟨by simp, rfl⟩ whole
    · exact .inl ⟨before.length, by simp, by simp⟩
  · rintro (⟨j, inside, rfl⟩ | ⟨o, ⟨before, after, rfl, rfl, whole⟩, rfl⟩)
    · rw [List.append_assoc]
      exact caret_unbroken unbroken _
    · refine ⟨body ++ brk ++ before, after, by simp, by simp [Nat.add_assoc], ?_⟩
      rintro ⟨last, feed⟩
      rw [List.getLast?_append] at last
      cases behind : before.getLast? with
      | some c => exact whole ⟨by simpa [behind] using last, feed⟩
      | none =>
          obtain rfl := List.getLast?_eq_none_iff.1 behind
          rw [behind, Option.none_or] at last
          exact apart (eq_of_getLast? known last) feed

/-- The places of a caret on the lines of a text are those in front of the line breaks. -/
theorem Lined.caret_iff (lined : Lined text ls) :
    Caret text o ↔ ∃ i line j, ls[i]? = some line ∧ j ≤ (lineContent line).length ∧
      o = width (ls.take i).flatten + width ((lineContent line).take j) := by
  induction lined generalizing o with
  | @last body unbroken =>
      constructor
      · rintro ⟨before, after, rfl, rfl, -⟩
        refine ⟨0, before ++ after, before.length, rfl, ?_, ?_⟩ <;>
          simp [(parts_of_unbroken unbroken).1]
      · rintro ⟨i, line, j, found, inside, rfl⟩
        obtain ⟨rfl, rfl⟩ : i = 0 ∧ body = line := by
          simpa [List.getElem?_singleton, eq_comm] using found
        simpa [(parts_of_unbroken unbroken).1] using caret_unbroken unbroken []
  | @next body brk rest ls unbroken known apart below ih =>
      have content := (parts_append unbroken (List.mem_cons_of_mem _ known)).1
      rw [caret_append_iff unbroken known apart]
      constructor
      · rintro (⟨j, inside, rfl⟩ | ⟨o, caret, rfl⟩)
        · exact ⟨0, body ++ brk, j, rfl, by rwa [content], by simp [content]⟩
        · obtain ⟨i, line, j, found, inside, rfl⟩ := ih.1 caret
          refine ⟨i + 1, line, j, by simpa using found, inside, ?_⟩
          rw [List.take_succ_cons, List.flatten_cons, width_append (body ++ brk), Nat.add_assoc]
      · rintro ⟨i, line, j, found, inside, rfl⟩
        cases i with
        | zero =>
            obtain rfl : body ++ brk = line := by simpa using found
            exact .inl ⟨j, by rwa [content] at inside, by simp [content]⟩
        | succ i =>
            refine .inr ⟨_, ih.2 ⟨i, line, j, by simpa using found, inside, rfl⟩, ?_⟩
            rw [List.take_succ_cons, List.flatten_cons, width_append (body ++ brk), Nat.add_assoc]

end Carets

/-! ## From positions to places -/

namespace Place

variable {text line : List Char} {p : Place}

theorem toOffset?_eq_none_iff : p.toOffset? text = none ↔ (lines text).length ≤ p.line := by
  rw [toOffset?, ← List.drop_eq_nil_iff]
  cases (lines text).drop p.line <;> simp

theorem toOffset?_eq_some (found : (lines text)[p.line]? = some line) :
    p.toOffset? text =
      some (width ((lines text).take p.line).flatten + width ((clipLine line).take p.column)) := by
  obtain ⟨inside, rfl⟩ := List.getElem?_eq_some_iff.1 found
  rw [toOffset?, List.drop_eq_getElem_cons inside]

/-- In front of the line break a column is kept, and one behind it is cut down if clipping drops
the line break. -/
theorem toOffset?_of_clipped (found : (lines text)[p.line]? = some line)
    (clips : p.column ≤ (lineContent line).length ∨ Clipped (lineBreak line)) :
    p.toOffset? text = some (width ((lines text).take p.line).flatten +
      width ((lineContent line).take (min p.column (lineContent line).length))) := by
  have clip := clipLine_eq ((lined_lines text).parts (List.mem_of_getElem? found))
  have cut : (clipLine line).take p.column =
      (lineContent line).take (min p.column (lineContent line).length) := by
    rw [clip]
    split
    · rw [List.take_eq_take_iff, Nat.min_assoc, Nat.min_self]
    · rename_i kept
      have within := clips.resolve_right kept
      have front := @List.take_append_of_le_length _ _ (lineBreak line) _ within
      rw [lineContent_append_lineBreak] at front
      rw [Nat.min_eq_left within, front]
  rw [toOffset?_eq_some found, cut]

/-- Any other line break lets a column behind it go to the next line. -/
theorem toOffset?_of_not_clipped (found : (lines text)[p.line]? = some line)
    (beyond : (lineContent line).length < p.column) (kept : ¬ Clipped (lineBreak line)) :
    p.line + 1 < (lines text).length ∧
      p.toOffset? text = some (width ((lines text).take (p.line + 1)).flatten) := by
  have lined := lined_lines text
  have known := lined.parts (List.mem_of_getElem? found)
  have ended : lineBreak line ≠ [] := fun none => kept (by simp [none, Clipped])
  have length : line.length ≤ p.column := by
    have single := length_of_not_clipped known kept
    rw [← lineContent_append_lineBreak line, List.length_append, single]
    exact beyond
  refine ⟨lined.succ_lt_length found ended, ?_⟩
  rw [toOffset?_eq_some found, clipLine_eq known, if_neg kept, List.take_of_length_le length,
    ← width_append, List.take_add_one, found, Option.toList_some, List.flatten_concat]

/-- Only places of a caret are led to. -/
theorem caret_of_toOffset? {o : Nat} (place : p.toOffset? text = some o) : Caret text o := by
  have lined := lined_lines text
  have inside : p.line < (lines text).length := by
    rw [← Nat.not_le, ← toOffset?_eq_none_iff, place]
    exact Option.some_ne_none o
  have found := List.getElem?_eq_getElem inside
  rw [lined.caret_iff]
  by_cases clips : p.column ≤ (lineContent (lines text)[p.line]).length ∨
      Clipped (lineBreak (lines text)[p.line])
  · rw [toOffset?_of_clipped found clips] at place
    exact ⟨p.line, _, _, found, Nat.min_le_right _ _, (Option.some.inj place).symm⟩
  · rw [not_or, Nat.not_le] at clips
    obtain ⟨below, same⟩ := toOffset?_of_not_clipped found clips.1 clips.2
    rw [same] at place
    exact ⟨p.line + 1, _, 0, List.getElem?_eq_getElem below, Nat.zero_le _,
      by simpa using (Option.some.inj place).symm⟩

/-! ## There and back -/

/-- The numbers of a place on a line. -/
theorem ofOffset_line {i j : Nat} (found : (lines text)[i]? = some line)
    (inside : j ≤ (lineContent line).length) :
    ofOffset text (width ((lines text).take i).flatten + width ((lineContent line).take j)) =
      ⟨i, j⟩ := by
  rw [ofOffset, locate_lined (lined_lines text) found inside 0, Nat.zero_add]

/-- A place that is cut down stays on its line.  Only a column behind a line break that clipping
does not know goes to the next line. -/
theorem exists_toOffset? (found : (lines text)[p.line]? = some line) :
    ∃ o, p.toOffset? text = some o ∧ Boundary text o ∧
      ofOffset text o =
        if p.column ≤ (lineContent line).length ∨ Clipped (lineBreak line) then
          ⟨p.line, min p.column (lineContent line).length⟩
        else ⟨p.line + 1, 0⟩ := by
  split
  · rename_i clips
    have inside : min p.column (lineContent line).length ≤ (lineContent line).length :=
      Nat.min_le_right _ _
    have place := toOffset?_of_clipped found clips
    exact ⟨_, place, (caret_of_toOffset? place).boundary, ofOffset_line found inside⟩
  · rename_i beyond
    rw [not_or, Nat.not_le] at beyond
    obtain ⟨below, place⟩ := toOffset?_of_not_clipped found beyond.1 beyond.2
    have next := List.getElem?_eq_getElem below
    have located := ofOffset_line next (Nat.zero_le _)
    rw [List.take_zero, width_nil, Nat.add_zero] at located
    exact ⟨_, place, (caret_of_toOffset? place).boundary, located⟩

theorem toOffset?_of_caret {o : Nat} (caret : Caret text o) :
    (ofOffset text o).toOffset? text = some o := by
  obtain ⟨i, line, j, found, inside, rfl⟩ := (lined_lines text).caret_iff.1 caret
  rw [ofOffset_line found inside, toOffset?_of_clipped found (.inl inside), Nat.min_eq_left inside]

end Place

namespace Position

/-- **A position that is cut down stays on its line.**  Each position on a line of a text has a
place, which cuts no character, and below the last line there is none.  The position of the place
is on the same line, at the column or at the end of the content of the line if that comes first.
Only a column behind a line break that clipping does not know goes to the next line. -/
theorem ofOffset_toOffset? (text : List Char) (p : Position) :
    (p.toOffset? text = none ↔ (lines text).length ≤ p.line.toNat) ∧
    ∀ line, (lines text)[p.line.toNat]? = some line →
      lineBreak line ∈ [] :: lineBreaks ∧
      ∃ o, p.toOffset? text = some o ∧ Boundary text o ∧
        ofOffset text o =
          if p.column.toNat ≤ (lineContent line).length ∨ Clipped (lineBreak line) then
            ⟨p.line, .ofNat (min p.column.toNat (lineContent line).length)⟩
          else ⟨p.line + 1, 0⟩ := by
  refine ⟨Place.toOffset?_eq_none_iff, fun line found => ?_⟩
  obtain ⟨o, leads, boundary, located⟩ := @Place.exists_toOffset? text line p.place found
  refine ⟨(lined_lines text).parts (List.mem_of_getElem? found), o, leads, boundary, ?_⟩
  have next : UInt32.ofNat (p.line.toNat + 1) = p.line + 1 := by
    rw [UInt32.ofNat_add, UInt32.ofNat_toNat]
    rfl
  rw [ofOffset, located, apply_ite Place.position]
  simp only [Place.position, place, UInt32.ofNat_toNat, next]
  rfl

/-- A vertical tab ends its line, and a column behind it goes to the next line. -/
theorem not_clamped_of_tab :
    let text := "a\x0bb".toList
    (lines text)[0]? = some ['a', '\x0b'] ∧
      ¬ ∃ o, (⟨0, 40⟩ : Position).toOffset? text = some o ∧
        ofOffset text o = ⟨0, .ofNat (min 40 (lineContent ['a', '\x0b']).length)⟩ := by
  intro text
  refine ⟨by decide, ?_⟩
  rintro ⟨o, place, same⟩
  have there : (⟨0, 40⟩ : Position).toOffset? text = some 2 := by decide
  obtain rfl : 2 = o := Option.some.inj (there.symm.trans place)
  exact absurd same (by decide)

/-- A position that does not fit leads to another place. -/
theorem fits_of_toOffset? {text : List Char} {o : Nat}
    (leads : (ofOffset text o).toOffset? text = some o) : (Place.ofOffset text o).Fits := by
  have inside : (ofOffset text o).line.toNat < (lines text).length := line_ofOffset_lt text o
  have found := List.getElem?_eq_getElem inside
  obtain ⟨o', there, -, located⟩ := @Place.exists_toOffset? text _ (ofOffset text o).place found
  obtain rfl : o = o' := Option.some.inj (leads.symm.trans there)
  have line : (ofOffset text o).place.line = (Place.ofOffset text o).line % 4294967296 :=
    UInt32.toNat_ofNat'
  have column : (ofOffset text o).place.column = (Place.ofOffset text o).column % 4294967296 :=
    UInt32.toNat_ofNat'
  -- A number that is cut down is too small by far to be that of the line in front.
  rw [Place.Fits, UInt32.size]
  split at located
  all_goals
    have line' := congrArg Place.line located
    have column' := congrArg Place.column located
    simp only at line' column'
    omega

/-- **The places of a caret survive the way through positions** if their numbers fit, and no others
do.  So two of them never have the same position. -/
theorem toOffset?_ofOffset (text : List Char) :
    (∀ o, (ofOffset text o).toOffset? text = some o ↔
      Caret text o ∧ (Place.ofOffset text o).Fits) ∧
    ∀ a b, Caret text a → Caret text b → (Place.ofOffset text a).Fits →
      (Place.ofOffset text b).Fits → ofOffset text a = ofOffset text b → a = b := by
  have back {o : Nat} (caret : Caret text o) (fits : (Place.ofOffset text o).Fits) :
      (ofOffset text o).toOffset? text = some o := by
    rw [toOffset?, place_ofOffset fits]
    exact Place.toOffset?_of_caret caret
  refine ⟨fun o => ⟨fun same => ⟨Place.caret_of_toOffset? same, fits_of_toOffset? same⟩,
    fun both => back both.1 both.2⟩, ?_⟩
  intro a b first second fits fits' same
  have there := back first fits
  rw [same, back second fits'] at there
  exact (Option.some.inj there).symm

/-- On a line of 2³² characters its two ends have one position, and the second one is not found
again. -/
theorem shared_on_long_line :
    let text := List.replicate UInt32.size 'a'
    Caret text 0 ∧ Caret text UInt32.size ∧
      ofOffset text 0 = ofOffset text UInt32.size ∧
      (ofOffset text UInt32.size).toOffset? text ≠ some UInt32.size := by
  intro text
  have caret {n o : Nat} (inside : o ≤ n) : Caret (List.replicate n 'a') o := by
    have unbroken : Unbroken (List.replicate n 'a') := by
      intro c member
      rw [List.eq_of_mem_replicate member]
      decide
    have width (k : Nat) : width (List.replicate k 'a') = k := by
      induction k with
      | zero => rfl
      | succ k ih =>
          rw [List.replicate_succ, width_cons, ih]
          exact Nat.add_comm 1 k
    have place := @caret_unbroken _ unbroken o []
    rwa [List.append_nil, List.take_replicate, Nat.min_eq_left inside, width] at place
  have last : Place.ofOffset text UInt32.size = ⟨0, UInt32.size⟩ :=
    Place.ofOffset_replicate (Nat.le_refl _)
  have first : Place.ofOffset text 0 = ⟨0, 0⟩ := Place.ofOffset_replicate (Nat.zero_le _)
  refine ⟨caret (Nat.zero_le _), caret (Nat.le_refl _), ?_, fun leads => ?_⟩
  · rw [ofOffset, ofOffset, first, last]
    decide
  · have fits := fits_of_toOffset? leads
    rw [last] at fits
    exact absurd fits.2 (Nat.lt_irrefl _)

end Position

end PackageRecipe.Text
