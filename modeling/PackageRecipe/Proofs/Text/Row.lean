import PackageRecipe.Text.Span

/-!
# Spans in a row

Spans of a text that follow each other and cut no character.

## Main Definitions

* `Boundary` — a place between two characters of a text
* `Row` — spans that follow each other between two places

## Design Notes

A row names the places between which it stands, so that rows can be put together
without comparing their spans (`Row.append`).  What stands in a row is never compared
place by place: rows are put together, thinned out (`Row.sublist`) and merged
(`Row.merge`), and only at the end read with `Row.bounds` and `Row.pairwise`.
-/

namespace PackageRecipe.Text

/-! ## Spans in a row -/

/-- A byte offset of a text that lies between two characters, or at an end. -/
def Boundary (text : List Char) (o : Nat) : Prop :=
  ∃ before after, text = before ++ after ∧ o = width before

/-- Spans of a text that follow each other between two places, none of which cuts a
character. -/
inductive Row (text : List Char) : Nat → Nat → List Span → Prop where
  | nil {lo hi : Nat} : lo ≤ hi → Row text lo hi []
  | cons {lo hi : Nat} {s : Span} {r : List Span} :
      lo ≤ s.start → s.start ≤ s.stop → Boundary text s.start → Boundary text s.stop →
      Row text s.stop hi r → Row text lo hi (s :: r)

namespace Row

variable {text : List Char} {lo mid hi : Nat} {s : Span} {ss us : List Span}

theorem le (row : Row text lo hi ss) : lo ≤ hi := by
  induction row with
  | nil bounds => exact bounds
  | cons low ordered _ _ _ ih => omega

/-- A row stands between all places around it. -/
theorem widen (row : Row text lo hi ss) {lo' hi' : Nat} (low : lo' ≤ lo) (high : hi ≤ hi') :
    Row text lo' hi' ss := by
  induction row generalizing lo' with
  | nil bounds => exact .nil (by omega)
  | cons begins ordered first last _ ih =>
      exact .cons (Nat.le_trans low begins) ordered first last (ih (Nat.le_refl _) high)

theorem append_iff :
    Row text lo hi (ss ++ us) ↔ ∃ mid, Row text lo mid ss ∧ Row text mid hi us := by
  constructor
  · intro row
    induction ss generalizing lo with
    | nil => exact ⟨lo, .nil (Nat.le_refl _), row⟩
    | cons s ss ih =>
        cases row with
        | cons begins ordered first last rest =>
            obtain ⟨mid, left, right⟩ := ih rest
            exact ⟨mid, .cons begins ordered first last left, right⟩
  · rintro ⟨mid, left, right⟩
    induction left with
    | nil bounds => exact right.widen bounds (Nat.le_refl _)
    | cons begins ordered first last _ ih => exact .cons begins ordered first last (ih right)

theorem append (left : Row text lo mid ss) (right : Row text mid hi us) :
    Row text lo hi (ss ++ us) :=
  append_iff.2 ⟨mid, left, right⟩

/-- A row may be thinned out. -/
theorem sublist (row : Row text lo hi us) (part : ss.Sublist us) : Row text lo hi ss := by
  induction part generalizing lo with
  | slnil => exact row
  | cons s _ ih =>
      cases row with
      | cons begins ordered _ _ rest =>
          exact (ih rest).widen (Nat.le_trans begins ordered) (Nat.le_refl _)
  | cons_cons s _ ih =>
      cases row with
      | cons begins ordered first last rest => exact .cons begins ordered first last (ih rest)

/-- Two spans of a row and all between them make one. -/
theorem merge {a b : Span} (ss : List Span) (row : Row text lo hi (a :: (ss ++ b :: us))) :
    Row text lo hi (⟨a.start, b.stop⟩ :: us) := by
  cases row with
  | cons begins ordered first _ rest =>
      obtain ⟨mid, before, behind⟩ := append_iff.1 rest
      cases behind with
      | cons begins' ordered' _ last rest =>
          have apart := before.le
          have whole : a.start ≤ b.stop := by omega
          exact .cons begins whole first last rest

/-- A row begins where its first span does. -/
theorem from_head (row : Row text lo hi (s :: ss)) : Row text s.start hi (s :: ss) := by
  cases row with
  | cons _ ordered first last rest => exact .cons (Nat.le_refl _) ordered first last rest

/-- A row ends where its last span does. -/
theorem up_to_last (row : Row text lo hi ss) (last : ss.getLast? = some s) :
    Row text lo s.stop ss ∧ s.stop ≤ hi ∧ Boundary text s.stop := by
  obtain ⟨front, rfl⟩ := List.getLast?_eq_some_iff.1 last
  obtain ⟨mid, left, right⟩ := append_iff.1 row
  cases right with
  | cons begins ordered first last rest =>
      exact ⟨left.append (.cons begins ordered first last (.nil (Nat.le_refl _))), rest.le, last⟩

/-- Where each span of a row stands. -/
theorem bounds (row : Row text lo hi ss) (member : s ∈ ss) :
    lo ≤ s.start ∧ s.start ≤ s.stop ∧ s.stop ≤ hi ∧ Boundary text s.start ∧
      Boundary text s.stop := by
  induction row with
  | nil => simp at member
  | cons begins ordered first last rest ih =>
      rcases List.mem_cons.1 member with rfl | member
      · exact ⟨begins, ordered, rest.le, first, last⟩
      · obtain ⟨low, others⟩ := ih member
        exact ⟨by omega, others⟩

theorem pairwise (row : Row text lo hi ss) : ss.Pairwise fun a b => a.stop ≤ b.start := by
  induction row with
  | nil => exact .nil
  | cons _ _ _ _ rest ih => exact .cons (fun s member => (rest.bounds member).1) ih

end Row

end PackageRecipe.Text
