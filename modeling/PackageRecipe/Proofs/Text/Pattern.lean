import PackageRecipe.Text.Pattern

/-!
# Patterns on parts of a text

`PackageRecipe.Text.Pattern` ties the matcher to the texts of a pattern.  A
scanner asks three more things of it, which are proved here.

* **What a match is made of.**  `Within` says that a pattern only reads
  characters of a class, `Needs` that it never matches without a given
  character, `Leads` that its first character belongs to a class.  All are read
  off the pattern, so no text has to be inspected.
* **The longest match is a match** (`matches_take_longest`), and no other is longer
  (`length_le_longest`).
* **The longest match looks no further than its end** (`longest_append`): a text
  that is cut behind the match has the same longest match.  This is what makes
  a scanner local.
-/

namespace PackageRecipe.Text.Pattern

/-! ## The characters of a match -/

/-- All characters that the pattern can read satisfy `P`. -/
def Within (P : Char → Prop) : Pattern → Prop
  | .never => True
  | .empty => True
  | .one cls => ∀ c, cls c → P c
  | .alt p q => p.Within P ∧ q.Within P
  | .seq p q => p.Within P ∧ q.Within P
  | .many p => p.Within P

/-- Every text of the pattern holds the character `a`. -/
def Needs (a : Char) : Pattern → Prop
  | .never => True
  | .empty => False
  | .one cls => ∀ c, cls c → c = a
  | .alt p q => p.Needs a ∧ q.Needs a
  | .seq p q => p.Needs a ∨ q.Needs a
  | .many _ => False

/-- Every text of the pattern begins with a character that satisfies `P`. -/
def Leads (P : Char → Prop) : Pattern → Prop
  | .never => True
  | .empty => False
  | .one cls => ∀ c, cls c → P c
  | .alt p q => p.Leads P ∧ q.Leads P
  | .seq p _ => p.Leads P
  | .many _ => False

theorem matches_one {cls : Char → Bool} {s : List Char} :
    Matches (.one cls) s ↔ ∃ c, s = [c] ∧ cls c := by
  constructor
  · rintro ⟨⟩
    exact ⟨_, rfl, ‹_›⟩
  · rintro ⟨c, rfl, accepted⟩
    exact .one accepted

theorem matches_char {c : Char} {s : List Char} : Matches (char c) s ↔ s = [c] := by
  simp [char, matches_one]

theorem Within.forall_mem {P : Char → Prop} {p : Pattern} {s : List Char}
    (within : p.Within P) (matched : Matches p s) : ∀ c ∈ s, P c := by
  induction matched with
  | empty | stop => simp
  | one accepted =>
      intro c member
      obtain rfl := List.mem_singleton.1 member
      exact within _ accepted
  | left _ ih => exact ih within.1
  | right _ ih => exact ih within.2
  | seq _ _ ihLeft ihRight =>
      intro c member
      rcases List.mem_append.1 member with member | member
      · exact ihLeft within.1 c member
      · exact ihRight within.2 c member
  | more _ _ ihFirst ihRest =>
      intro c member
      rcases List.mem_append.1 member with member | member
      · exact ihFirst within c member
      · exact ihRest within c member

theorem Needs.mem {a : Char} {p : Pattern} {s : List Char}
    (needs : p.Needs a) (matched : Matches p s) : a ∈ s := by
  induction matched with
  | empty | stop | more => exact needs.elim
  | one accepted => exact List.mem_singleton.2 (needs _ accepted).symm
  | left _ ih => exact ih needs.1
  | right _ ih => exact ih needs.2
  | seq _ _ ihLeft ihRight =>
      rcases needs with needs | needs
      · exact List.mem_append_left _ (ihLeft needs)
      · exact List.mem_append_right _ (ihRight needs)

theorem Leads.exists_cons {P : Char → Prop} {p : Pattern} {s : List Char}
    (leads : p.Leads P) (matched : Matches p s) : ∃ c r, s = c :: r ∧ P c := by
  induction matched with
  | empty | stop | more => exact leads.elim
  | one accepted => exact ⟨_, [], rfl, leads _ accepted⟩
  | left _ ih => exact ih leads.1
  | right _ ih => exact ih leads.2
  | seq _ _ ihLeft _ =>
      obtain ⟨c, r, rfl, first⟩ := ihLeft leads
      exact ⟨c, _, List.cons_append, first⟩

/-- A text without a character that the pattern needs is refused. -/
theorem Needs.accepts_eq_false {a : Char} {p : Pattern} {s : List Char}
    (needs : p.Needs a) (absent : a ∉ s) : p.accepts s = false := by
  rw [Bool.eq_false_iff]
  intro accepted
  exact absent (needs.mem ((accepts_iff_matches p s).1 accepted))

/-- Repeating a pattern reads no further characters. -/
theorem Within.between {P : Char → Prop} {p : Pattern} (within : p.Within P) (lo extra : Nat) :
    (p.between lo extra).Within P := by
  induction lo generalizing extra with
  | zero =>
      induction extra with
      | zero => simp [Pattern.between, Within]
      | succ extra ih => simp [Pattern.between, Pattern.opt, Within, within, ih]
  | succ lo ih => simp [Pattern.between, Within, within, ih]

/-! ## The longest match -/

theorem longest_le_length {p : Pattern} {s : List Char} {n : Nat}
    (found : p.longest s = Option.some n) : n ≤ s.length := by
  induction s generalizing p n with
  | nil =>
      unfold longest at found
      split at found <;> simp_all
  | cons c r ih =>
      unfold longest at found
      split at found
      · rename_i m longer
        have := ih longer
        simp only [Option.some.injEq] at found
        simp only [List.length_cons]
        omega
      · split at found
        · obtain rfl : 0 = n := by simpa using found
          exact Nat.zero_le _
        · simp at found

/-- The beginning that `longest` finds is a text of the pattern. -/
theorem matches_take_longest {p : Pattern} {s : List Char} {n : Nat}
    (found : p.longest s = Option.some n) : Matches p (s.take n) := by
  induction s generalizing p n with
  | nil =>
      unfold longest at found
      split at found
      · rename_i empty
        simpa using (nullable_iff p).1 empty
      · simp at found
  | cons c r ih =>
      unfold longest at found
      split at found
      · rename_i m longer
        obtain rfl : m + 1 = n := by simpa using found
        simpa using matches_after.1 (ih longer)
      · split at found
        · rename_i empty
          obtain rfl : 0 = n := by simpa using found
          simpa using (nullable_iff p).1 empty
        · simp at found

theorem nullable_of_longest_eq_zero {p : Pattern} {s : List Char}
    (found : p.longest s = Option.some 0) : p.nullable = true := by
  have matched := matches_take_longest found
  simpa using (nullable_iff p).2 (by simpa using matched)

theorem nullable_eq_false_of_longest_eq_none {p : Pattern} {s : List Char}
    (missing : p.longest s = none) : p.nullable = false := by
  cases s <;> unfold longest at missing <;> split at missing <;> simp_all

/-- No beginning of a text that matches is longer. -/
theorem length_le_longest {p : Pattern} {x : List Char} (matched : Matches p x) (y : List Char) :
    ∃ n, p.longest (x ++ y) = Option.some n ∧ x.length ≤ n := by
  induction x generalizing p with
  | nil =>
      rw [List.nil_append]
      cases found : p.longest y with
      | some n => exact ⟨n, rfl, Nat.zero_le n⟩
      | none =>
          have refused := nullable_eq_false_of_longest_eq_none found
          rw [(nullable_iff p).2 matched] at refused
          contradiction
  | cons c x ih =>
      obtain ⟨n, longer, reach⟩ := ih (matches_after.2 matched)
      refine ⟨n + 1, ?_, Nat.succ_le_succ reach⟩
      rw [List.cons_append, longest, longer]

/-- A match ends in front of a character that stands in no text of the pattern. -/
theorem longest_cons_of_notMem {a : Char} {p : Pattern} (absent : ∀ t, Matches p t → a ∉ t)
    (s : List Char) : p.longest (a :: s) = p.longest [] := by
  have refused : (p.after a).longest s = none := by
    cases found : (p.after a).longest s with
    | none => rfl
    | some n =>
        have matched := matches_after.1 (matches_take_longest found)
        exact absurd List.mem_cons_self (absent _ matched)
  simp only [longest, refused]

/-- A beginning of `x` that matches is also one of `x ++ y`. -/
theorem longest_append_ne_none {p : Pattern} {x : List Char} (y : List Char) {n : Nat}
    (found : p.longest x = Option.some n) : p.longest (x ++ y) ≠ none := by
  intro missing
  obtain ⟨m, longer, -⟩ := length_le_longest (matches_take_longest found) (x.drop n ++ y)
  rw [← List.append_assoc, List.take_append_drop, missing] at longer
  contradiction

/-- Where no beginning of a text matches, none of a part of it does. -/
theorem longest_append_eq_none {p : Pattern} {x y : List Char}
    (missing : p.longest (x ++ y) = none) : p.longest x = none := by
  cases found : p.longest x with
  | none => rfl
  | some n => exact absurd missing (longest_append_ne_none y found)

/-- A match that ends inside `x` does not depend on what follows `x`. -/
theorem longest_append {p : Pattern} {x y : List Char} {n : Nat}
    (found : p.longest (x ++ y) = Option.some n) (inside : n ≤ x.length) :
    p.longest x = Option.some n := by
  induction x generalizing p n with
  | nil =>
      obtain rfl : n = 0 := by simpa using inside
      simp [longest, nullable_of_longest_eq_zero found]
  | cons c x ih =>
      rw [List.cons_append, longest] at found
      rw [longest]
      cases longer : (p.after c).longest (x ++ y) with
      | some m =>
          simp only [longer, Option.some.injEq] at found
          simp only [List.length_cons] at inside
          rw [ih longer (by omega)]
          simp [found]
      | none =>
          simp only [longer] at found
          rw [longest_append_eq_none longer]
          exact found

end PackageRecipe.Text.Pattern
