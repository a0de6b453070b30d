import Mathlib.Order.Basic
import PackageRecipe.Text.Position

/-!
# The order of positions

A byte offset further on in a text never has a place further up, and all places of offsets lie
on lines of the text.  An editor gets the numbers of a place in 32 bits, so it is told the same
of the texts whose lines and columns these can number, and of no others.

## Main Definitions

* `Place.On` — a place in front of a character of a text, or at its end
* `Place.Fits` — a place whose numbers have 32 bits
* `Addressable` — a text of which all places fit
* `Region.Proper` — a region that begins no later than it ends, with both ends on the text

## Design Notes

`Place.locate` counts lines and columns from where it begins, so all that is shown by
induction is said of a text that begins anywhere, and `Place.ofOffset` is read off at
the end.  A carriage return in front of a line feed ends no line, so the place between the
two lies on the line that both end.

Each line and each column that is counted up to is the number of an offset further up
(`exists_locate_line`, `exists_locate_column`).  So if one place does not fit, then there is a
first one that does not, and its position is that of the start of the text or of a line: this is
why no text but an addressable one keeps the order (`ofOffset_mono_iff`).
-/

namespace PackageRecipe.Text

namespace Place

/-- Places are ordered by line, and on a line by column. -/
instance : LE Place :=
  ⟨fun p q => p.line < q.line ∨ p.line = q.line ∧ p.column ≤ q.column⟩

theorem le_def {p q : Place} :
    p ≤ q ↔ p.line < q.line ∨ p.line = q.line ∧ p.column ≤ q.column :=
  Iff.rfl

instance (p q : Place) : Decidable (p ≤ q) :=
  inferInstanceAs (Decidable (_ ∨ _))

instance : Preorder Place where
  le_refl p := .inr ⟨rfl, Nat.le_refl _⟩
  le_trans p q r first second := by
    rw [le_def] at *
    omega

/-- A place stands on a line of a text: in front of one of its characters, or at the
end of the last one. -/
def On (text : List Char) (p : Place) : Prop :=
  ∃ line, (lines text)[p.line]? = some line ∧
    (p.column < line.length ∨ p.column = line.length ∧ p.line + 1 = (lines text).length)

theorem On.line_lt {text : List Char} {p : Place} (on : p.On text) :
    p.line < (lines text).length := by
  obtain ⟨line, found, -⟩ := on
  exact (List.getElem?_eq_some_iff.1 found).1

theorem locate_zero (p : Place) (text : List Char) : p.locate 0 text = p := by
  cases text with
  | nil => rfl
  | cons c r => rw [locate, if_pos c.utf8Size_pos]

theorem locate_cons (p : Place) (c : Char) (rest : List Char) (o : Nat) :
    p.locate (c.utf8Size + o) (c :: rest) = (p.advance c rest).locate o rest := by
  rw [locate, if_neg (by omega), Nat.add_sub_cancel_left]

/-! ## Places behind each other -/

section Order

variable {p : Place} {text : List Char} {a b : Nat}

theorem le_advance (c : Char) (rest : List Char) : p ≤ p.advance c rest := by
  rw [advance, le_def]
  split
  · exact .inl (Nat.lt_succ_self _)
  · exact .inr ⟨rfl, Nat.le_succ _⟩

theorem le_locate (offset : Nat) : p ≤ p.locate offset text := by
  induction text generalizing p offset with
  | nil => exact le_refl p
  | cons c r ih =>
      rw [locate]
      split
      · exact le_refl p
      · exact (le_advance c r).trans (ih _)

theorem locate_mono (order : a ≤ b) : p.locate a text ≤ p.locate b text := by
  induction text generalizing p a b with
  | nil => exact le_refl p
  | cons c r ih =>
      rw [locate]
      split
      · exact le_locate b
      · rename_i beyond
        rw [locate, if_neg (by omega)]
        exact ih (by omega)

/-- **Offsets further on have places further on.** -/
theorem ofOffset_mono (text : List Char) (order : a ≤ b) : ofOffset text a ≤ ofOffset text b :=
  locate_mono order

/-- A line that is counted up to begins somewhere. -/
theorem exists_locate_line {l offset : Nat} (behind : p.line < l)
    (upTo : l ≤ (p.locate offset text).line) : ∃ o, p.locate o text = ⟨l, 0⟩ := by
  induction text generalizing p offset with
  | nil =>
      rw [locate] at upTo
      omega
  | cons c r ih =>
      rw [locate] at upTo
      split at upTo
      · omega
      · by_cases here : (p.advance c r).line < l
        · obtain ⟨o, found⟩ := ih here upTo
          exact ⟨c.utf8Size + o, by rw [locate_cons, found]⟩
        · -- The character ends the line in front.
          refine ⟨c.utf8Size + 0, ?_⟩
          rw [locate_cons, locate_zero]
          unfold advance at here ⊢
          split at here
          · rw [if_pos ‹_›]
            congr
            simp only at here
            omega
          · exact absurd behind here

/-- A column that is counted up to is that of a place on the same line. -/
theorem exists_locate_column {k offset : Nat} (upTo : k ≤ (p.locate offset text).column)
    (behind : (p.locate offset text).line = p.line → p.column ≤ k) :
    ∃ o, p.locate o text = ⟨(p.locate offset text).line, k⟩ := by
  induction text generalizing p offset with
  | nil => exact ⟨0, by rw [locate_zero, locate, Nat.le_antisymm upTo (behind rfl)]; rfl⟩
  | cons c r ih =>
      by_cases within : offset < c.utf8Size
      · have same : p.locate offset (c :: r) = p := by rw [locate, if_pos within]
        rw [same] at upTo behind ⊢
        exact ⟨0, by rw [locate_zero, Nat.le_antisymm upTo (behind rfl)]⟩
      · obtain ⟨left, rfl⟩ := Nat.exists_eq_add_of_le (Nat.le_of_not_lt within)
        rw [locate_cons] at upTo behind ⊢
        by_cases later : ((p.advance c r).locate left r).line = (p.advance c r).line →
            (p.advance c r).column ≤ k
        · obtain ⟨o, found⟩ := ih upTo later
          exact ⟨c.utf8Size + o, by rw [locate_cons, found]⟩
        · -- The column is the one in front of the character, which ends no line.
          obtain ⟨line, beyond⟩ := Classical.not_imp.1 later
          rw [line] at behind ⊢
          unfold advance at behind beyond ⊢
          split at beyond
          · exact absurd (Nat.zero_le k) beyond
          · rename_i goesOn
            rw [if_neg goesOn] at behind ⊢
            have column : p.column = k := Nat.le_antisymm (behind rfl) (by simp at beyond; omega)
            exact ⟨0, by rw [locate_zero, ← column]⟩

end Order

/-! ## Places on lines -/

/-- Where a place lies that is found in a text that begins at `p`: on the line of `p`
its column is counted from there. -/
theorem locate_on (p : Place) (offset : Nat) (text : List Char) :
    ∃ i j line, (lines text)[i]? = some line ∧
      p.locate offset text = ⟨p.line + i, (if i = 0 then p.column else 0) + j⟩ ∧
      (j < line.length ∨ j = line.length ∧ i + 1 = (lines text).length) := by
  induction text generalizing p offset with
  | nil => exact ⟨0, 0, [], rfl, rfl, .inr ⟨rfl, rfl⟩⟩
  | cons c r ih =>
      rw [locate, lines]
      by_cases within : offset < c.utf8Size
      · rw [if_pos within]
        split
        · exact ⟨0, 0, [c], rfl, rfl, .inl Nat.zero_lt_one⟩
        · split
          · exact ⟨0, 0, [c], rfl, rfl, .inl Nat.zero_lt_one⟩
          · exact ⟨0, 0, _, rfl, rfl, .inl (Nat.succ_pos _)⟩
      · rw [if_neg within, advance]
        split
        · obtain ⟨i, j, line, found, same, inside⟩ := ih ⟨p.line + 1, 0⟩ (offset - c.utf8Size)
          refine ⟨i + 1, j, line, found, ?_, ?_⟩
          · rw [same]
            simp
            omega
          · simpa using inside
        · obtain ⟨i, j, line, found, same, inside⟩ :=
            ih ⟨p.line, p.column + 1⟩ (offset - c.utf8Size)
          cases below : lines r with
          | nil => exact absurd below (lines_ne_nil r)
          | cons l ls =>
              rw [below] at found inside
              cases i with
              | zero =>
                  obtain rfl : l = line := by simpa using found
                  refine ⟨0, j + 1, c :: l, rfl, ?_, ?_⟩
                  · rw [same]
                    simp
                    omega
                  · simpa using inside
              | succ i => exact ⟨i + 1, j, line, by simpa using found, by simpa using same,
                  by simpa using inside⟩

/-- **The place of an offset lies on a line of the text.** -/
theorem on_ofOffset (text : List Char) (offset : Nat) : (ofOffset text offset).On text := by
  obtain ⟨i, j, line, found, same, inside⟩ := locate_on ⟨0, 0⟩ offset text
  refine ⟨line, ?_, ?_⟩ <;> rw [ofOffset, same]
  · simpa using found
  · simpa using inside

/-- Counting goes no further than there are characters. -/
theorem locate_le (p : Place) (offset : Nat) (text : List Char) :
    (p.locate offset text).line ≤ p.line + text.length ∧
      (p.locate offset text).column ≤ p.column + text.length := by
  induction text generalizing p offset with
  | nil => exact ⟨Nat.le_refl _, Nat.le_refl _⟩
  | cons c r ih =>
      rw [locate, List.length_cons]
      split
      · omega
      · have behind := ih (p.advance c r) (offset - c.utf8Size)
        have step : (p.advance c r).line ≤ p.line + 1 ∧ (p.advance c r).column ≤ p.column + 1 := by
          unfold advance
          split <;> simp
        omega

/-- On a text of one line, places have the numbers of the characters in front. -/
theorem ofOffset_replicate {n o : Nat} (inside : o ≤ n) :
    ofOffset (List.replicate n 'a') o = ⟨0, o⟩ := by
  have all (p : Place) (n o : Nat) (inside : o ≤ n) :
      p.locate o (List.replicate n 'a') = ⟨p.line, p.column + o⟩ := by
    induction n generalizing p o with
    | zero =>
        obtain rfl := Nat.le_zero.1 inside
        rfl
    | succ n ih =>
        cases o with
        | zero => exact locate_zero p _
        | succ o =>
            have step : p.advance 'a' (List.replicate n 'a') = ⟨p.line, p.column + 1⟩ := rfl
            have one : o + 1 = 'a'.utf8Size + o := Nat.add_comm o 1
            rw [List.replicate_succ, one, locate_cons, step, ih _ o (Nat.le_of_succ_le_succ inside),
              ← one, Nat.add_assoc, Nat.add_comm 1]
  rw [ofOffset, all ⟨0, 0⟩ n o inside, Nat.zero_add]

/-! ## Numbers of 32 bits -/

/-- A place whose numbers have 32 bits. -/
def Fits (p : Place) : Prop :=
  p.line < UInt32.size ∧ p.column < UInt32.size

theorem place_position_eq_iff {p : Place} : p.position.place = p ↔ p.Fits := by
  have kept (n : Nat) : (UInt32.ofNat n).toNat = n ↔ n < UInt32.size := by
    rw [UInt32.toNat_ofNat']
    exact ⟨fun same => same ▸ Nat.mod_lt n (by decide), Nat.mod_eq_of_lt⟩
  obtain ⟨line, column⟩ := p
  simp only [position, Position.place, Fits, Place.mk.injEq, kept]

theorem Fits.place_position {p : Place} (fits : p.Fits) : p.position.place = p :=
  place_position_eq_iff.2 fits

end Place

/-- A text of which all places fit. -/
def Addressable (text : List Char) : Prop :=
  ∀ o, (Place.ofOffset text o).Fits

/-- A text with less than 2³² characters is addressable. -/
theorem addressable_of_length {text : List Char} (short : text.length < UInt32.size) :
    Addressable text := by
  intro o
  have upTo := Place.locate_le ⟨0, 0⟩ o text
  simp only [Nat.zero_add] at upTo
  exact ⟨Nat.lt_of_le_of_lt upTo.1 short, Nat.lt_of_le_of_lt upTo.2 short⟩

namespace Position

/-- Positions are ordered as the places that they name. -/
instance : LE Position :=
  ⟨fun p q => p.place ≤ q.place⟩

theorem le_def {p q : Position} : p ≤ q ↔ p.place ≤ q.place :=
  Iff.rfl

instance : Preorder Position :=
  Preorder.lift Position.place

/-- A position that names a place on a line of a text. -/
def On (text : List Char) (p : Position) : Prop :=
  p.place.On text

section Text

variable {text : List Char} {a b : Nat}

theorem place_ofOffset (fits : (Place.ofOffset text a).Fits) :
    (ofOffset text a).place = Place.ofOffset text a :=
  fits.place_position

/-- Offsets further on have positions further on if their places fit. -/
theorem ofOffset_mono (order : a ≤ b) (fits : (Place.ofOffset text a).Fits)
    (fits' : (Place.ofOffset text b).Fits) : ofOffset text a ≤ ofOffset text b := by
  rw [le_def, place_ofOffset fits, place_ofOffset fits']
  exact Place.ofOffset_mono text order

theorem on_ofOffset (fits : (Place.ofOffset text a).Fits) : (ofOffset text a).On text := by
  rw [On, place_ofOffset fits]
  exact Place.on_ofOffset text a

/-- The line of a position is one of the text, also if its number does not fit. -/
theorem line_ofOffset_lt (text : List Char) (a : Nat) :
    (ofOffset text a).line.toNat < (lines text).length := by
  have kept : (ofOffset text a).line.toNat ≤ (Place.ofOffset text a).line := by
    rw [ofOffset, Place.position, UInt32.toNat_ofNat']
    exact Nat.mod_le _ _
  exact Nat.lt_of_le_of_lt kept (Place.on_ofOffset text a).line_lt

/-- **Exactly in an addressable text offsets further on have positions further on.** -/
theorem ofOffset_mono_iff (text : List Char) :
    (∀ a b, a ≤ b → ofOffset text a ≤ ofOffset text b) ↔ Addressable text := by
  refine ⟨fun mono o => ?_, fun fits a b order => ofOffset_mono order (fits a) (fits b)⟩
  have kept {a b : Nat} {p q : Place} (first : Place.ofOffset text a = p)
      (second : Place.ofOffset text b = q) (ahead : ¬ q ≤ p) :
      p.position.place ≤ q.position.place := by
    have order : a ≤ b := by
      rcases Nat.le_total a b with order | order
      · exact order
      · exact absurd (first ▸ second ▸ Place.ofOffset_mono text order) ahead
    rw [← first, ← second]
    exact mono a b order
  -- The number of the first line or column that does not fit is cut down to zero.
  have line : (Place.ofOffset text o).line < UInt32.size := by
    by_contra beyond
    obtain ⟨b, last⟩ := Place.exists_locate_line (by decide) (Nat.le_of_not_lt beyond)
    obtain ⟨a, first⟩ := @Place.exists_locate_line ⟨0, 0⟩ text 1 b (by decide)
      (by rw [last]; decide)
    exact absurd (kept first last (by decide)) (by decide)
  have column : (Place.ofOffset text o).column < UInt32.size := by
    by_contra beyond
    obtain ⟨b, last⟩ := Place.exists_locate_column (Nat.le_of_not_lt beyond) (by simp)
    obtain ⟨a, first⟩ := @Place.exists_locate_column ⟨0, 0⟩ text 1 o
      (Nat.le_trans (by decide) (Nat.le_of_not_lt beyond)) (by simp)
    have order := kept first last (by simp [Place.le_def, UInt32.size])
    simp [Place.position, place, Place.le_def] at order
  exact ⟨line, column⟩

end Text

end Position

/-! ## Regions -/

namespace Region

/-- A region within another. -/
def Within (r outer : Region) : Prop :=
  outer.start ≤ r.start ∧ r.stop ≤ outer.stop

/-- A region of a text that begins no later than it ends. -/
structure Proper (text : List Char) (r : Region) : Prop where
  ordered : r.start ≤ r.stop
  start : r.start.On text
  stop : r.stop.On text

variable {text : List Char} {s outer : Span}

theorem proper_ofSpan (addressable : Addressable text) (ordered : s.start ≤ s.stop) :
    (ofSpan text s).Proper text where
  ordered := Position.ofOffset_mono ordered (addressable _) (addressable _)
  start := Position.on_ofOffset (addressable _)
  stop := Position.on_ofOffset (addressable _)

/-- The region at the start of a text is the one of whole documents. -/
theorem ofSpan_zero (text : List Char) : ofSpan text ⟨0, 0⟩ = default := by
  rw [ofSpan, Position.ofOffset, Place.ofOffset, Place.locate_zero]
  rfl

theorem within_ofSpan (addressable : Addressable text) (low : outer.start ≤ s.start)
    (high : s.stop ≤ outer.stop) : (ofSpan text s).Within (ofSpan text outer) :=
  ⟨Position.ofOffset_mono low (addressable _) (addressable _),
    Position.ofOffset_mono high (addressable _) (addressable _)⟩

end Region

end PackageRecipe.Text
