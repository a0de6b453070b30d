import PackageRecipe.Proofs.Sdl.Scanning

/-!
# The pieces of a part of a text

How a text falls into pieces does not depend on what stands around it, if it is cut off
between two pieces.

## Main Definitions

* `PieceKind.leavesOpen` — the kinds of pieces that a line feed does not end
* `endsInBackslash` — a line feed behind the text would not end the line

## Design Notes

There are two ways to cut.  In a text that is known as a whole the cut has to stand
between two pieces, the first of which is no backslash (`split_behind`, `split_ahead`).
If only what stands in front of a line feed is known, nothing may be left open there
(`split_append_feed`).
-/

namespace PackageRecipe.Sdl

open PackageRecipe.Text

namespace Piece

/-! ## Cuts between pieces -/

/-- The pieces behind a place are those of the text behind it. -/
theorem split_behind {s : List Char} {done todo : List Piece} (cut : split s = done ++ todo) :
    split (todo.flatMap text) = todo := by
  induction done generalizing s with
  | nil =>
      rw [List.nil_append] at cut
      rw [← cut, flatten_split]
  | cons p done ih =>
      cases s with
      | nil => simp [split] at cut
      | cons c s =>
          rw [split_eq_cons (begins_first c s)] at cut
          exact ih (List.cons.inj cut).2

/-- The pieces in front of a place are those of the text in front of it, unless a
backslash stands there, which would be taken for a line continuation. -/
theorem split_ahead {s : List Char} {done todo : List Piece} (cut : split s = done ++ todo)
    (last : ∀ p ∈ done.getLast?, p.kind ≠ .continuation false) :
    split (done.flatMap text) = done := by
  induction done generalizing s with
  | nil => simp [split]
  | cons p done ih =>
      cases s with
      | nil => simp [split] at cut
      | cons c s =>
          have begun := begins_first c s
          rw [split_eq_cons begun] at cut
          generalize (first c s).1 = kind at begun cut
          generalize (first c s).2 = n at begun cut
          rw [List.cons_append] at cut
          obtain ⟨rfl, rest⟩ := List.cons.inj cut
          have later : split (done.flatMap text) = done := by
            apply ih rest
            intro q ends
            apply last q
            cases done with
            | nil => simp at ends
            | cons q' done => simpa [List.getLast?_cons] using ends
          -- The text behind the first character, up to the cut and further.
          have reach : (s.take n).length = n := List.length_take_of_le begun.le_length
          have spelled : s = (s.take n ++ done.flatMap text) ++ todo.flatMap text := by
            rw [List.append_assoc, ← List.flatMap_append, ← rest, flatten_split,
              List.take_append_drop]
          have whole : (⟨kind, c :: s.take n⟩ :: done).flatMap text =
              c :: (s.take n ++ done.flatMap text) := rfl
          rw [whole]
          rw [spelled] at begun
          rcases begun.inside (by simp [reach]) with begun | ⟨stray, atEnd, -⟩
          · rw [split_eq_cons begun, List.take_left' reach, List.drop_left' reach, later]
          · have nothing : done.flatMap text = [] := by
              rw [List.length_append, reach] at atEnd
              exact List.length_eq_zero_iff.1 (by omega)
            obtain rfl : done = [] := by
              rw [← later, nothing, split]
            exact absurd stray (last _ rfl)

/-! ## Lines -/

/-- The last character that is no blank is a backslash. -/
def endsInBackslash (s : List Char) : Bool :=
  (s.reverse.dropWhile isLineBlank).head? == some '\\'

/-- A text ends as a part at its end does. -/
theorem endsInBackslash_of_suffix {x s : List Char} (suffix : x <:+ s)
    (ends : endsInBackslash x) : endsInBackslash s := by
  obtain ⟨front, rfl⟩ := suffix
  unfold endsInBackslash at ends ⊢
  rw [List.reverse_append, List.dropWhile_append]
  split
  · rename_i none
    rw [List.isEmpty_iff.1 none] at ends
    simp at ends
  · rw [List.head?_append]
    rw [beq_iff_eq] at ends
    rw [ends]
    rfl

theorem endsInBackslash_of_blanks {s : List Char} (blanks : ∀ c ∈ s, isLineBlank c) :
    endsInBackslash ('\\' :: s) := by
  unfold endsInBackslash
  rw [List.reverse_cons, List.dropWhile_append_of_pos (by simpa using blanks)]
  rfl

/-! ### Scans that stop at a line feed -/

/-- A scan that has found its end looks no further. -/
theorem Local.append_of_closed {scan : List Char → Nat × Bool} (reads : Local scan) {x : List Char}
    (closed : (scan x).2 = true) (y : List Char) : scan (x ++ y) = scan x := by
  by_cases inside : (scan (x ++ y)).1 ≤ x.length
  · exact (reads.inside inside).symm
  · rw [reads.cut (Nat.lt_of_not_le inside)] at closed
    simp at closed

/-- A run of characters ends at a line feed. -/
theorem run_append_feed {p : Char → Bool} (ends : p '\n' = false) (x y : List Char) :
    run p (x ++ '\n' :: y) = run p x := by
  refine (run_inside ?_).symm
  induction x with
  | nil => simp [run, ends]
  | cons c x ih => by_cases holds : p c <;> simp_all [run]

/-- A string reaches over a line feed only behind a backslash. -/
theorem endsInBackslash_of_quoted {x y : List Char}
    (beyond : x.length < (quoted (x ++ '\n' :: y)).1) : endsInBackslash x := by
  induction x using quoted_induction with
  | empty | feed | quote => simp [quoted] at beyond
  | lone | loneReturn => decide
  | pair d r ih =>
      simp only [List.cons_append, quoted, List.length_cons, Nat.add_lt_add_iff_right] at beyond
      exact endsInBackslash_of_suffix ⟨['\\', '\r', d], rfl⟩ (ih beyond)
  | escape d r noReturn ih =>
      simp only [List.cons_append, quoted_escape noReturn, List.length_cons,
        Nat.add_lt_add_iff_right] at beyond
      exact endsInBackslash_of_suffix ⟨['\\', d], rfl⟩ (ih beyond)
  | plain d r plain ih =>
      simp only [List.cons_append, quoted_plain plain, List.length_cons,
        Nat.add_lt_add_iff_right] at beyond
      exact endsInBackslash_of_suffix ⟨[d], rfl⟩ (ih beyond)

/-- A backslash that continues no line does so in front of a line feed, too. -/
theorem continuationBody_append_feed {x : List Char} (noBackslash : ¬ endsInBackslash ('\\' :: x))
    (y : List Char) : continuationBody (x ++ '\n' :: y) = continuationBody x := by
  have same := run_append_feed (p := isLineBlank) rfl x y
  have reach := run_le_length isLineBlank x
  unfold continuationBody
  simp only [same, List.drop_append_of_le_length reach]
  cases rest : x.drop (run isLineBlank x) with
  | cons c r => rfl
  | nil =>
      refine absurd (endsInBackslash_of_blanks fun c member => ?_) noBackslash
      have whole : x.takeWhile isLineBlank = x := by
        apply (List.takeWhile_prefix _).eq_of_length
        exact Nat.le_antisymm reach (List.drop_eq_nil_iff.1 rest)
      rw [← whole] at member
      exact List.all_eq_true.1 List.all_takeWhile c member

/-- A numeral does not reach over a line feed. -/
theorem numeral_append_feed (c : Char) (x y : List Char) :
    numeral c (x ++ '\n' :: y) = numeral c x := by
  refine (numeral_inside ?_).symm
  have same := run_append_feed (p := Numeral.isNumeralChar) rfl x y
  have reach := run_le_length Numeral.isNumeralChar x
  unfold numeral
  simp only [same, List.drop_append_of_le_length reach]
  split
  · cases found : Numeral.timeOfDay.longest
        (x.drop (run Numeral.isNumeralChar x) ++ '\n' :: y) with
    | none => exact reach
    | some n =>
        -- Otherwise the line feed would belong to the time of day.
        apply Nat.le_of_not_lt
        intro beyond
        simp only [Option.getD_some] at beyond
        have matched := Pattern.matches_take_longest found
        apply timeOfDay_within_notMem_endMarks.forall_mem matched '\n'
        · rw [List.take_append, List.mem_append]
          right
          obtain ⟨k, more⟩ := Nat.exists_eq_add_of_lt
            (show (x.drop (run Numeral.isNumeralChar x)).length < n by rw [List.length_drop]; omega)
          rw [more, Nat.add_assoc, Nat.add_sub_cancel_left, List.take_succ_cons]
          exact List.mem_cons_self
        · simp [endMarks]
  · split <;> exact reach

end Piece

/-- The kinds of pieces that are still open behind a line feed. -/
def PieceKind.leavesOpen : PieceKind → Bool
  | .token (.string true false) | .token (.binary false) | .blockComment false => true
  | _ => false

namespace Piece

/-- No character that begins nothing begins anything in front of a line feed. -/
theorem Stray.append_feed {c : Char} {x : List Char} (stray : Stray c x) (y : List Char) :
    Stray c (x ++ '\n' :: y) := by
  cases x with
  | cons d x => exact { stray with }
  | nil =>
      refine { stray with noLineComment := ?_, noBlockComment := by simp, noNumeral := ?_ }
      · rintro (hash | ⟨slash, feed⟩)
        · exact stray.noLineComment (.inl hash)
        · obtain rfl : '\n' = c := by simpa using feed
          simp at slash
      · rintro (digit | ⟨-, feed⟩)
        · exact stray.noNumeral (.inl digit)
        · simp [digitFollows] at feed

/-- **A piece in front of a line feed** is found without it, too, unless it is open there
or a backslash stands in front of the line feed. -/
theorem Begins.append_feed {c : Char} {x : List Char} {kind : PieceKind} {n : Nat}
    (begun : Begins c x kind n) (closed : kind.leavesOpen = false)
    (noBackslash : ¬ endsInBackslash (c :: x)) (y : List Char) :
    Begins c (x ++ '\n' :: y) kind n := by
  cases begun with
  | mark marked => exact .mark marked
  | blank blank => exact .blank blank
  | continuation backslash =>
      subst backslash
      rw [← continuationBody_append_feed noBackslash y]
      exact .continuation rfl
  | lineComment starts =>
      rw [← run_append_feed rfl x y]
      exact .lineComment (starts.append _)
  | blockComment slash star =>
      obtain ⟨d, r, rfl⟩ : ∃ d r, x = d :: r := by
        cases x with
        | nil => simp at star
        | cons d r => exact ⟨d, r, rfl⟩
      have ends : (blockBody r).2 = true := by
        cases same : (blockBody r).2 <;> simp_all [PieceKind.leavesOpen]
      rw [List.drop_succ_cons, List.drop_zero, ← local_blockBody.append_of_closed ends]
      exact .blockComment slash star
  | quoted quote =>
      have inside : (Piece.quoted (x ++ '\n' :: y)).1 ≤ x.length := by
        apply Nat.le_of_not_lt
        intro beyond
        exact noBackslash (endsInBackslash_of_suffix (List.suffix_cons c x)
          (endsInBackslash_of_quoted beyond))
      rw [local_quoted.inside inside]
      exact .quoted quote
  | raw quote =>
      have ends : (upTo '\x60' x).2 = true := by
        cases same : (upTo '\x60' x).2 <;> simp_all [PieceKind.leavesOpen]
      rw [← (local_upTo _).append_of_closed ends]
      exact .raw quote
  | binary bracket =>
      have ends : (upTo ']' x).2 = true := by
        cases same : (upTo ']' x).2 <;> simp_all [PieceKind.leavesOpen]
      rw [← (local_upTo _).append_of_closed ends]
      exact .binary bracket
  | numeral starts =>
      rw [← numeral_append_feed c x y]
      exact .numeral (starts.append _)
  | identifier start =>
      rw [← run_append_feed (by decide) x y]
      exact .identifier start
  | unknown stray => exact .unknown (stray.append_feed y)

/-- **A line feed cuts a text** whose pieces are closed in front of it. -/
theorem split_append_feed {s : List Char} (closed : ∀ p ∈ split s, p.kind.leavesOpen = false)
    (noBackslash : ¬ endsInBackslash s) (y : List Char) :
    split (s ++ '\n' :: y) = split s ++ ⟨.token .newline, ['\n']⟩ :: split y := by
  fun_induction split s with
  | case1 =>
      have feed : Begins '\n' y (.token .newline) 0 := .mark rfl
      rw [List.nil_append, split_eq_cons feed]
      rfl
  | case2 c s kind n computed ih =>
      have begun := begins_iff.2 computed
      have reach := begun.le_length
      have feed := begun.append_feed (closed _ List.mem_cons_self) noBackslash y
      rw [List.cons_append, split_eq_cons feed, List.take_append_of_le_length reach,
        List.drop_append_of_le_length reach, ih, List.cons_append]
      · exact fun p member => closed p (List.mem_cons_of_mem _ member)
      · exact fun ends => noBackslash (endsInBackslash_of_suffix
          ((List.drop_suffix n s).trans (List.suffix_cons c s)) ends)

end Piece

end PackageRecipe.Sdl
