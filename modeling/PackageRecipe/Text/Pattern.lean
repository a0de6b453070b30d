/-!
# Patterns of characters

Regular patterns over characters with their meaning (`Pattern.Matches`) and a
matcher that takes one character at a time (`Pattern.after`, the pattern of what
may still follow). Main statement: `accepts_iff_matches`.
-/

namespace PackageRecipe.Text

/-- A regular pattern. -/
inductive Pattern where
  /-- Matches nothing. -/
  | never
  /-- Matches the empty text. -/
  | empty
  /-- Matches one character of a class. -/
  | one (cls : Char → Bool)
  /-- Matches what either pattern matches. -/
  | alt (p q : Pattern)
  /-- Matches a text of the first pattern followed by one of the second. -/
  | seq (p q : Pattern)
  /-- Matches any number of texts of the pattern in a row. -/
  | many (p : Pattern)

namespace Pattern

/-- The texts of a pattern. -/
inductive Matches : Pattern → List Char → Prop where
  | empty : Matches .empty []
  | one {cls : Char → Bool} {c : Char} : cls c → Matches (.one cls) [c]
  | left {p q : Pattern} {s : List Char} : Matches p s → Matches (.alt p q) s
  | right {p q : Pattern} {s : List Char} : Matches q s → Matches (.alt p q) s
  | seq {p q : Pattern} {s t : List Char} : Matches p s → Matches q t → Matches (.seq p q) (s ++ t)
  | stop {p : Pattern} : Matches (.many p) []
  | more {p : Pattern} {s t : List Char} :
      Matches p s → Matches (.many p) t → Matches (.many p) (s ++ t)

/-- One given character. -/
def char (c : Char) : Pattern := .one (· == c)

/-- Zero or one text of the pattern. -/
def opt (p : Pattern) : Pattern := .alt p .empty

/-- One or more texts of the pattern in a row. -/
def some (p : Pattern) : Pattern := .seq p (.many p)

/-- Patterns one after the other. -/
def all : List Pattern → Pattern
  | [] => .empty
  | p :: ps => .seq p (all ps)

/-- Between `lo` and `lo + extra` texts of the pattern in a row. -/
def between (p : Pattern) : (lo extra : Nat) → Pattern
  | lo + 1, extra => .seq p (between p lo extra)
  | 0, extra + 1 => opt (.seq p (between p 0 extra))
  | 0, 0 => .empty

/-- Whether the pattern matches the empty text. -/
def nullable : Pattern → Bool
  | .never => false
  | .empty => true
  | .one _ => false
  | .alt p q => p.nullable || q.nullable
  | .seq p q => p.nullable && q.nullable
  | .many _ => true

/-- `alt`, without a branch that matches nothing. -/
def orElse : Pattern → Pattern → Pattern
  | .never, q => q
  | p, .never => p
  | p, q => .alt p q

/-- `seq`, reduced when its first part is trivial. -/
def andThen : Pattern → Pattern → Pattern
  | .never, _ => .never
  | .empty, q => q
  | p, q => .seq p q

/-- The pattern of what may follow `c` in a text of the pattern. -/
def after (c : Char) : Pattern → Pattern
  | .never => .never
  | .empty => .never
  | .one cls => if cls c then .empty else .never
  | .alt p q => orElse (p.after c) (q.after c)
  | .seq p q =>
    if p.nullable then orElse (andThen (p.after c) q) (q.after c) else andThen (p.after c) q
  | .many p => andThen (p.after c) (.many p)

/-- Whether the whole text is one of the pattern. -/
def accepts (p : Pattern) (s : List Char) : Bool :=
  (s.foldl (fun p c => p.after c) p).nullable

/-- The length of the longest beginning of a text that the pattern matches. -/
def longest (p : Pattern) : List Char → Option Nat
  | [] => if p.nullable then Option.some 0 else none
  | c :: r =>
    match (p.after c).longest r with
    | Option.some n => Option.some (n + 1)
    | none => if p.nullable then Option.some 0 else none

/-! ### The matcher decides the meaning -/

theorem nullable_iff (p : Pattern) : p.nullable ↔ Matches p [] := by
  induction p with
  | never => exact ⟨by simp [nullable], by nofun⟩
  | empty => exact ⟨fun _ => .empty, fun _ => rfl⟩
  | one cls => exact ⟨by simp [nullable], by nofun⟩
  | alt p q hp hq =>
    simp only [nullable, Bool.or_eq_true, hp, hq]
    exact ⟨fun h => h.elim .left .right, by rintro (h | h) <;> simp_all⟩
  | seq p q hp hq =>
    simp only [nullable, Bool.and_eq_true, hp, hq]
    refine ⟨fun ⟨h, k⟩ => .seq h k, fun h => ?_⟩
    generalize hs : ([] : List Char) = s at h
    cases h with
    | seq h k =>
      obtain ⟨rfl, rfl⟩ := List.append_eq_nil_iff.1 hs.symm
      exact ⟨h, k⟩
  | many p _ => exact ⟨fun _ => .stop, fun _ => rfl⟩

theorem matches_alt {p q : Pattern} {s : List Char} :
    Matches (.alt p q) s ↔ Matches p s ∨ Matches q s :=
  ⟨by rintro (h | h) <;> simp_all, fun h => h.elim .left .right⟩

theorem matches_seq {p q : Pattern} {s : List Char} :
    Matches (.seq p q) s ↔ ∃ t u, s = t ++ u ∧ Matches p t ∧ Matches q u := by
  constructor
  · rintro ⟨⟩
    exact ⟨_, _, rfl, ‹_›, ‹_›⟩
  · rintro ⟨t, u, rfl, h, k⟩
    exact .seq h k

theorem not_matches_never {s : List Char} : ¬ Matches .never s := by nofun

theorem matches_empty {s : List Char} : Matches .empty s ↔ s = [] :=
  ⟨by rintro ⟨⟩; rfl, by rintro rfl; exact .empty⟩

theorem matches_orElse {p q : Pattern} {s : List Char} :
    Matches (orElse p q) s ↔ Matches p s ∨ Matches q s := by
  unfold orElse
  split <;> simp [matches_alt, not_matches_never]

theorem matches_andThen {p q : Pattern} {s : List Char} :
    Matches (andThen p q) s ↔ Matches (.seq p q) s := by
  unfold andThen
  split
  · simp [matches_seq, not_matches_never]
  · rw [matches_seq]
    refine ⟨fun h => ⟨[], s, rfl, .empty, h⟩, ?_⟩
    rintro ⟨t, u, rfl, h, k⟩
    rw [matches_empty.1 h]
    exact k
  · rfl

/-- The first character of a repetition belongs to one of its non-empty texts. -/
theorem matches_many_cons {p : Pattern} {c : Char} {s : List Char} :
    Matches (.many p) (c :: s) ↔ ∃ t u, s = t ++ u ∧ Matches p (c :: t) ∧ Matches (.many p) u := by
  constructor
  · intro h
    generalize hq : Pattern.many p = q at h
    generalize hs : c :: s = w at h
    induction h with
    | empty | one | left | right | seq => cases hq
    | stop => cases hs
    | @more p' a b h k _ ih =>
      cases hq
      cases a with
      | nil => exact ih rfl hs
      | cons d r =>
        simp only [List.cons_append, List.cons.injEq] at hs
        obtain ⟨rfl, rfl⟩ := hs
        exact ⟨_, _, rfl, h, k⟩
  · rintro ⟨t, u, rfl, h, k⟩
    exact .more h k

theorem matches_after {c : Char} {p : Pattern} {s : List Char} :
    Matches (p.after c) s ↔ Matches p (c :: s) := by
  induction p generalizing s with
  | never => exact ⟨by nofun, by nofun⟩
  | empty => exact ⟨by nofun, by nofun⟩
  | one cls =>
    unfold after
    split
    · rw [matches_empty]
      exact ⟨by rintro rfl; exact .one ‹_›, by rintro ⟨⟩; rfl⟩
    · exact ⟨by nofun, by rintro ⟨h⟩; contradiction⟩
  | alt p q hp hq => rw [after, matches_orElse, matches_alt, hp, hq]
  | many p hp =>
    rw [after, matches_andThen, matches_seq, matches_many_cons]
    simp only [hp]
  | seq p q hp hq =>
    have key : Matches (.seq p q) (c :: s) ↔
        (∃ t u, s = t ++ u ∧ Matches p (c :: t) ∧ Matches q u) ∨
          (Matches p [] ∧ Matches q (c :: s)) := by
      rw [matches_seq]
      constructor
      · rintro ⟨t, u, h, ht, hu⟩
        cases t with
        | nil => exact .inr ⟨ht, by simpa [h] using hu⟩
        | cons d r =>
          simp only [List.cons_append, List.cons.injEq] at h
          obtain ⟨rfl, rfl⟩ := h
          exact .inl ⟨r, u, rfl, ht, hu⟩
      · rintro (⟨t, u, rfl, ht, hu⟩ | ⟨ht, hu⟩)
        · exact ⟨c :: t, u, rfl, ht, hu⟩
        · exact ⟨[], c :: s, rfl, ht, hu⟩
    rw [key, after]
    split
    · rename_i h
      rw [matches_orElse, matches_andThen, matches_seq, hq]
      simp only [hp, (nullable_iff p).1 h, true_and]
    · rename_i h
      rw [matches_andThen, matches_seq]
      simp only [hp, mt (nullable_iff p).2 h, false_and, or_false]

/-- The matcher accepts exactly the texts of the pattern. -/
theorem accepts_iff_matches (p : Pattern) (s : List Char) : p.accepts s ↔ Matches p s := by
  induction s generalizing p with
  | nil => exact nullable_iff p
  | cons c r ih => exact (ih (p.after c)).trans matches_after

end Pattern

end PackageRecipe.Text
