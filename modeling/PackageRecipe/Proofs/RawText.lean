import Mathlib
import PackageRecipe.RawText

/-!
# What raw texts display

A raw text is read as characters and as pieces that belong to none, and a text is displayed as
it is.  So a raw text is that of one text at most.

## Main Definitions

* `RawText.Displays` — what bytes are read as
* `RawText.IsText` — the bytes of a text

## Main Results

* `RawText.characters_eq_iff`, `RawText.display_of_displays` — bytes are read as
  `RawText.Displays` says, and so they are displayed
* `RawText.display_ofString` — a text is displayed as it is

## Design Notes

`Displays` knows the bytes of whole characters only: a piece that belongs to none is as long as
it begins the bytes of some character.  The reader sees one byte after the other, with bounds for
the next one.  What connects the two is that a byte is within the bounds exactly if it leads on
to a character (`exists_begun`), and this is arithmetic with the bytes of a character, of which
there are two to four (`encode_two`, `encode_three`, `encode_four`).
-/

namespace PackageRecipe.RawText

open String (utf8EncodeChar)

variable {n v x y z : ℕ} {b : UInt8} {c : Char} {piece rest bytes : List UInt8} {t : RawText}
  {text : String} {shown : List (Option Char)}

/-! ## The bytes of a character -/

theorem toNat_ofNat (small : n < 256) : (UInt8.ofNat n).toNat = n :=
  UInt8.toNat_ofNat_of_lt' (by simpa using small)

theorem val_ofNat (valid : v < 0xD800 ∨ 0xDFFF < v ∧ v < 0x110000) :
    (Char.ofNat v).val.toNat = v := by
  rw [Char.ofNat, dif_pos valid]
  exact UInt32.toNat_ofNatLT

theorem encode_one (small : v < 0x80) : utf8EncodeChar (Char.ofNat v) = [UInt8.ofNat v] := by
  rw [utf8EncodeChar, val_ofNat (by omega), if_pos (by omega)]

theorem encode_two (low : 2 ≤ n) (high : n < 0x20) (first : x < 64) :
    utf8EncodeChar (Char.ofNat (64 * n + x)) =
      [UInt8.ofNat (n + 0xC0), UInt8.ofNat (x + 0x80)] := by
  have digits : (64 * n + x) / 64 % 32 = n ∧ (64 * n + x) % 64 = x := by omega
  rw [utf8EncodeChar, val_ofNat (by omega), if_neg (by omega), if_pos (by omega), digits.1,
    digits.2]

theorem encode_three (high : n < 0x10) (low : n = 0 → 32 ≤ x) (surrogate : n = 13 → x < 32)
    (first : x < 64) (second : y < 64) :
    utf8EncodeChar (Char.ofNat (64 * (64 * n + x) + y)) =
      [UInt8.ofNat (n + 0xE0), UInt8.ofNat (x + 0x80), UInt8.ofNat (y + 0x80)] := by
  have digits : (64 * (64 * n + x) + y) / 4096 % 16 = n ∧ (64 * (64 * n + x) + y) / 64 % 64 = x ∧
      (64 * (64 * n + x) + y) % 64 = y := by omega
  rw [utf8EncodeChar, val_ofNat (by omega), if_neg (by omega), if_neg (by omega),
    if_pos (by omega), digits.1, digits.2.1, digits.2.2]

theorem encode_four (high : n < 5) (low : n = 0 → 16 ≤ x) (last : n = 4 → x < 16)
    (first : x < 64) (second : y < 64) (third : z < 64) :
    utf8EncodeChar (Char.ofNat (64 * (64 * (64 * n + x) + y) + z)) =
      [UInt8.ofNat (n + 0xF0), UInt8.ofNat (x + 0x80), UInt8.ofNat (y + 0x80),
        UInt8.ofNat (z + 0x80)] := by
  have digits : (64 * (64 * (64 * n + x) + y) + z) / 262144 % 8 = n ∧
      (64 * (64 * (64 * n + x) + y) + z) / 4096 % 64 = x ∧
      (64 * (64 * (64 * n + x) + y) + z) / 64 % 64 = y ∧
      (64 * (64 * (64 * n + x) + y) + z) % 64 = z := by omega
  rw [utf8EncodeChar, val_ofNat (by omega), if_neg (by omega), if_neg (by omega),
    if_neg (by omega), digits.1, digits.2.1, digits.2.2.1, digits.2.2.2]

/-- The bytes of a character are those of one of these four. -/
theorem encode_cases (c : Char) :
    (∃ v < 0x80, c = Char.ofNat v) ∨
    (∃ n x, 2 ≤ n ∧ n < 0x20 ∧ x < 64 ∧ c = Char.ofNat (64 * n + x)) ∨
    (∃ n x y, n < 0x10 ∧ (n = 0 → 32 ≤ x) ∧ (n = 13 → x < 32) ∧ x < 64 ∧ y < 64 ∧
      c = Char.ofNat (64 * (64 * n + x) + y)) ∨
    ∃ n x y z, n < 5 ∧ (n = 0 → 16 ≤ x) ∧ (n = 4 → x < 16) ∧ x < 64 ∧ y < 64 ∧ z < 64 ∧
      c = Char.ofNat (64 * (64 * (64 * n + x) + y) + z) := by
  have valid : c.val.toNat < 0xD800 ∨ 0xDFFF < c.val.toNat ∧ c.val.toNat < 0x110000 := c.valid
  have back : Char.ofNat c.val.toNat = c := Char.ofNat_toNat c
  generalize c.val.toNat = v at valid back
  subst back
  rcases Nat.lt_or_ge v 0x80 with one | one
  · exact .inl ⟨v, one, rfl⟩
  rcases Nat.lt_or_ge v 0x800 with two | two
  · refine .inr (.inl ⟨v / 64, v % 64, by omega, by omega, by omega, ?_⟩)
    rw [Nat.div_add_mod]
  rcases Nat.lt_or_ge v 0x10000 with three | three
  · refine .inr (.inr (.inl ⟨v / 4096, v / 64 % 64, v % 64, by omega, by omega, by omega,
      by omega, by omega, congrArg _ (by omega)⟩))
  · refine .inr (.inr (.inr ⟨v / 262144, v / 4096 % 64, v / 64 % 64, v % 64, by omega, by omega,
      by omega, by omega, by omega, by omega, congrArg _ (by omega)⟩))

/-! ## Reading byte by byte -/

theorem start_one (small : v < 0x80) : start (UInt8.ofNat v) = ([some (Char.ofNat v)], none) := by
  have same : (UInt8.ofNat v).toNat = v := toNat_ofNat (by omega)
  rw [start, if_pos (UInt8.lt_iff_toNat_lt.2 (by rw [same]; exact small)), same]

theorem start_two (low : 2 ≤ n) (high : n < 0x20) :
    start (UInt8.ofNat (n + 0xC0)) = ([], some ⟨n, 0x80, 0xBF, 0⟩) := by
  have all : ∀ n < 0x20, 2 ≤ n →
      start (UInt8.ofNat (n + 0xC0)) = ([], some ⟨n, 0x80, 0xBF, 0⟩) := by decide
  exact all n high low

theorem start_three (high : n < 0x10) : start (UInt8.ofNat (n + 0xE0)) =
    ([], some ⟨n, if n = 0 then 0xA0 else 0x80, if n = 13 then 0x9F else 0xBF, 1⟩) := by
  revert n
  decide

theorem start_four (high : n < 5) : start (UInt8.ofNat (n + 0xF0)) =
    ([], some ⟨n, if n = 0 then 0x90 else 0x80, if n = 4 then 0x8F else 0xBF, 2⟩) := by
  revert n
  decide

/-- What bytes begin characters of each length. -/
theorem start_cases (b : UInt8) :
    (∃ v < 0x80, b = UInt8.ofNat v) ∨ (∃ n, 2 ≤ n ∧ n < 0x20 ∧ b = UInt8.ofNat (n + 0xC0)) ∨
    (∃ n < 0x10, b = UInt8.ofNat (n + 0xE0)) ∨ (∃ n < 5, b = UInt8.ofNat (n + 0xF0)) ∨
    start b = ([none], none) := by
  obtain ⟨k, small, rfl⟩ : ∃ k < 256, b = UInt8.ofNat k :=
    ⟨b.toNat, b.toNat_lt, UInt8.ofNat_toNat.symm⟩
  have others : ∀ k < 256, 0x80 ≤ k ∧ (k < 0xC2 ∨ 0xF5 ≤ k) →
      start (UInt8.ofNat k) = ([none], none) := by decide +kernel
  rcases Nat.lt_or_ge k 0x80 with one | one
  · exact .inl ⟨k, one, rfl⟩
  by_cases leads : 0xC2 ≤ k ∧ k < 0xF5
  · rcases Nat.lt_or_ge k 0xE0 with two | two
    · exact .inr (.inl ⟨k - 0xC0, by omega, by omega, congrArg _ (by omega)⟩)
    rcases Nat.lt_or_ge k 0xF0 with three | three
    · exact .inr (.inr (.inl ⟨k - 0xE0, by omega, congrArg _ (by omega)⟩))
    · exact .inr (.inr (.inr (.inl ⟨k - 0xF0, by omega, congrArg _ (by omega)⟩)))
  · exact .inr (.inr (.inr (.inr (others k small ⟨one, by omega⟩))))

/-- A byte that begins a character leaves the character begun. -/
theorem characters_lead {begun : Begun} (lead : start b = ([], some begun)) :
    characters none (b :: rest) = characters (some begun) rest := by
  rw [characters, Option.elim_none, lead]
  rfl

section Continue

variable {bits more : ℕ} {low high : UInt8}

theorem within_iff (small : n + 0x80 < 256) :
    low ≤ UInt8.ofNat (n + 0x80) ∧ UInt8.ofNat (n + 0x80) ≤ high ↔
      low.toNat ≤ n + 0x80 ∧ n + 0x80 ≤ high.toNat := by
  rw [UInt8.le_iff_toNat_le, UInt8.le_iff_toNat_le, toNat_ofNat small]

/-- The last byte of a character. -/
theorem characters_last (within : low.toNat ≤ n + 0x80 ∧ n + 0x80 ≤ high.toNat) :
    characters (some ⟨bits, low, high, 0⟩) (UInt8.ofNat (n + 0x80) :: rest) =
      some (Char.ofNat (64 * bits + n)) :: characters none rest := by
  have small : n + 0x80 < 256 := Nat.lt_of_le_of_lt within.2 high.toNat_lt
  rw [characters, Option.elim_some, Begun.continue, if_pos ((within_iff small).2 within),
    toNat_ofNat small, Nat.add_sub_cancel]
  rfl

/-- A byte of a character that is not its last. -/
theorem characters_more (within : low.toNat ≤ n + 0x80 ∧ n + 0x80 ≤ high.toNat) :
    characters (some ⟨bits, low, high, more + 1⟩) (UInt8.ofNat (n + 0x80) :: rest) =
      characters (some ⟨64 * bits + n, 0x80, 0xBF, more⟩) rest := by
  have small : n + 0x80 < 256 := Nat.lt_of_le_of_lt within.2 high.toNat_lt
  rw [characters, Option.elim_some, Begun.continue, if_pos ((within_iff small).2 within),
    toNat_ofNat small, Nat.add_sub_cancel]
  rfl

/-- A byte out of the bounds breaks the character off. -/
theorem characters_beyond {begun : Begun} (beyond : ¬ (begun.low ≤ b ∧ b ≤ begun.high)) :
    characters (some begun) (b :: rest) = none :: characters none (b :: rest) := by
  rw [characters, Option.elim_some, Begun.continue, if_neg beyond, characters, Option.elim_none]
  rfl

end Continue

/-- Behind the second byte of a character all bytes have the same bounds. -/
theorem within_usual (small : n < 64) :
    (0x80 : UInt8).toNat ≤ n + 0x80 ∧ n + 0x80 ≤ (0xBF : UInt8).toNat := by
  have bounds : (0x80 : UInt8).toNat = 0x80 ∧ (0xBF : UInt8).toNat = 0xBF := ⟨rfl, rfl⟩
  omega

theorem within_three (small : x < 64) : (n = 0 → 32 ≤ x) ∧ (n = 13 → x < 32) ↔
    (if n = 0 then 0xA0 else 0x80 : UInt8).toNat ≤ x + 0x80 ∧
      x + 0x80 ≤ (if n = 13 then 0x9F else 0xBF : UInt8).toNat := by
  split_ifs <;> simp <;> omega

theorem within_four (small : x < 64) : (n = 0 → 16 ≤ x) ∧ (n = 4 → x < 16) ↔
    (if n = 0 then 0x90 else 0x80 : UInt8).toNat ≤ x + 0x80 ∧
      x + 0x80 ≤ (if n = 4 then 0x8F else 0xBF : UInt8).toNat := by
  split_ifs <;> simp <;> omega

/-- **The bytes of a character are read as the character.** -/
theorem characters_encode (c : Char) (rest : List UInt8) :
    characters none (utf8EncodeChar c ++ rest) = some c :: characters none rest := by
  rcases encode_cases c with ⟨v, small, rfl⟩ | ⟨n, x, low, high, first, rfl⟩ |
    ⟨n, x, y, high, low, surrogate, first, second, rfl⟩ |
    ⟨n, x, y, z, high, low, last, first, second, third, rfl⟩
  · rw [encode_one small, List.singleton_append, characters, Option.elim_none, start_one small]
    rfl
  · rw [encode_two low high first, List.cons_append, characters_lead (start_two low high),
      List.singleton_append, characters_last (within_usual first)]
  · rw [encode_three high low surrogate first second, List.cons_append,
      characters_lead (start_three high), List.cons_append,
      characters_more ((within_three first).1 ⟨low, surrogate⟩), List.singleton_append,
      characters_last (within_usual second)]
  · rw [encode_four high low last first second third, List.cons_append,
      characters_lead (start_four high), List.cons_append,
      characters_more ((within_four first).1 ⟨low, last⟩), List.cons_append,
      characters_more (within_usual second), List.singleton_append,
      characters_last (within_usual third)]

/-! ## Pieces that belong to no character -/

/-- Bytes with which those of a character begin. -/
def Begins (piece : List UInt8) : Prop :=
  ∃ c, piece <+: utf8EncodeChar c

/-- What bytes are read as: characters, and pieces that belong to none.  Where no character
stands, such a piece goes on as long as it begins the bytes of one, for one byte at least. -/
inductive Displays : List UInt8 → List (Option Char) → Prop
  | nil : Displays [] []
  | character (c : Char) {rest : List UInt8} {shown : List (Option Char)} :
      Displays rest shown → Displays (utf8EncodeChar c ++ rest) (some c :: shown)
  | broken {piece rest : List UInt8} {shown : List (Option Char)} :
      (∀ c, ¬ utf8EncodeChar c <+: piece ++ rest) → (Begins piece ∨ piece.length = 1) →
      piece ≠ [] → (∀ b ∈ rest.head?, ¬ Begins (piece ++ [b])) → Displays rest shown →
      Displays (piece ++ rest) (none :: shown)

/-- A character has begun with some bytes: what follows is read as what follows them, and what
is within the bounds leads on to a character. -/
structure Reads (piece : List UInt8) (begun : Begun) : Prop where
  read : ∀ rest, characters none (piece ++ rest) = characters (some begun) rest
  bounds : 0x80 ≤ begun.low.toNat ∧ begun.high.toNat ≤ 0xBF
  leads : ∀ x < 64, begun.low.toNat ≤ x + 0x80 ∧ x + 0x80 ≤ begun.high.toNat →
    Begins (piece ++ [UInt8.ofNat (x + 0x80)])

/-- A byte that does not lead on breaks the character off. -/
theorem Reads.broken {begun : Begun} (reads : Reads piece begun) (beyond : ¬ Begins (piece ++ [b]))
    (rest : List UInt8) : characters none (piece ++ b :: rest) =
      none :: characters none (b :: rest) := by
  rw [reads.read]
  refine characters_beyond fun within => beyond ?_
  obtain ⟨least, most⟩ := reads.bounds
  obtain ⟨above, below⟩ := within
  rw [UInt8.le_iff_toNat_le] at above below
  have digit : UInt8.ofNat (b.toNat - 0x80 + 0x80) = b := by
    rw [Nat.sub_add_cancel (by omega), UInt8.ofNat_toNat]
  have leads := reads.leads (b.toNat - 0x80) (by omega) (by omega)
  rwa [digit] at leads

/-- What is within the bounds and is not the last byte is read, too. -/
theorem Reads.more {bits more : ℕ} {low high : UInt8}
    (reads : Reads piece ⟨bits, low, high, more + 1⟩)
    (within : low.toNat ≤ x + 0x80 ∧ x + 0x80 ≤ high.toNat)
    (leads : ∀ y < 64, Begins (piece ++ [UInt8.ofNat (x + 0x80)] ++ [UInt8.ofNat (y + 0x80)])) :
    Reads (piece ++ [UInt8.ofNat (x + 0x80)]) ⟨64 * bits + x, 0x80, 0xBF, more⟩ where
  read rest := by
    rw [List.append_assoc, reads.read, List.singleton_append, characters_more within]
  bounds := ⟨Nat.le_refl 0x80, Nat.le_refl 0xBF⟩
  leads y small _ := leads y small

theorem reads_two (low : 2 ≤ n) (high : n < 0x20) :
    Reads [UInt8.ofNat (n + 0xC0)] ⟨n, 0x80, 0xBF, 0⟩ where
  read rest := characters_lead (start_two low high)
  bounds := ⟨Nat.le_refl 0x80, Nat.le_refl 0xBF⟩
  leads x first _ := ⟨_, by rw [encode_two low high first]; exact List.prefix_rfl⟩

theorem reads_three (high : n < 0x10) : Reads [UInt8.ofNat (n + 0xE0)]
    ⟨n, if n = 0 then 0xA0 else 0x80, if n = 13 then 0x9F else 0xBF, 1⟩ where
  read rest := characters_lead (start_three high)
  bounds := by
    dsimp only
    split_ifs <;> decide
  leads x first within := by
    obtain ⟨low, surrogate⟩ := (within_three first).2 within
    refine ⟨Char.ofNat (64 * (64 * n + x) + 0), ?_⟩
    rw [encode_three high low surrogate first (by decide)]
    exact List.prefix_append [_, _] [_]

theorem reads_four (high : n < 5) : Reads [UInt8.ofNat (n + 0xF0)]
    ⟨n, if n = 0 then 0x90 else 0x80, if n = 4 then 0x8F else 0xBF, 2⟩ where
  read rest := characters_lead (start_four high)
  bounds := by
    dsimp only
    split_ifs <;> decide
  leads x first within := by
    obtain ⟨low, last⟩ := (within_four first).2 within
    refine ⟨Char.ofNat (64 * (64 * (64 * n + x) + 0) + 0), ?_⟩
    rw [encode_four high low last first (by decide) (by decide)]
    exact List.prefix_append [_, _] [_, _]

/-- **Where the bytes of a character stop short, it has begun.** -/
theorem exists_reads (begins : piece <+: utf8EncodeChar c) (nonempty : piece ≠ [])
    (short : piece ≠ utf8EncodeChar c) : ∃ begun, Reads piece begun := by
  obtain ⟨k, some, less, rfl⟩ : ∃ k, 0 < k ∧ k < (utf8EncodeChar c).length ∧
      piece = (utf8EncodeChar c).take k :=
    ⟨piece.length, List.length_pos_iff.2 nonempty,
      lt_of_le_of_ne begins.length_le fun same => short (begins.eq_of_length same),
      List.prefix_iff_eq_take.1 begins⟩
  rcases encode_cases c with ⟨v, small, rfl⟩ | ⟨n, x, low, high, first, rfl⟩ |
    ⟨n, x, y, high, low, surrogate, first, second, rfl⟩ |
    ⟨n, x, y, z, high, low, last, first, second, third, rfl⟩
  · rw [encode_one small, List.length_singleton] at less
    omega
  · rw [encode_two low high first] at less ⊢
    obtain rfl : k = 1 := by simp at less; omega
    exact ⟨_, reads_two low high⟩
  · have two := (reads_three high).more ((within_three first).1 ⟨low, surrogate⟩) fun y second =>
      ⟨_, by rw [encode_three high low surrogate first second]; exact List.prefix_rfl⟩
    rw [encode_three high low surrogate first second] at less ⊢
    obtain rfl | rfl : k = 1 ∨ k = 2 := by simp at less; omega
    · exact ⟨_, reads_three high⟩
    · exact ⟨_, two⟩
  · have two := (reads_four high).more ((within_four first).1 ⟨low, last⟩) fun y second =>
      ⟨Char.ofNat (64 * (64 * (64 * n + x) + y) + 0), by
        rw [encode_four high low last first second (by decide)]
        exact List.prefix_append [_, _, _] [_]⟩
    have three := two.more (within_usual second) fun z third =>
      ⟨_, by rw [encode_four high low last first second third]; exact List.prefix_rfl⟩
    rw [encode_four high low last first second third] at less ⊢
    obtain rfl | rfl | rfl : k = 1 ∨ k = 2 ∨ k = 3 := by simp at less; omega
    · exact ⟨_, reads_four high⟩
    · exact ⟨_, two⟩
    · exact ⟨_, three⟩

theorem Begins.of_append {more : List UInt8} (begins : Begins (piece ++ more)) : Begins piece := by
  obtain ⟨c, front⟩ := begins
  exact ⟨c, (List.prefix_append _ _).trans front⟩

/-- A byte that begins no character is read by itself. -/
theorem start_of_not_begins (beyond : ¬ Begins [b]) : start b = ([none], none) := by
  rcases start_cases b with ⟨v, small, rfl⟩ | ⟨n, low, high, rfl⟩ | ⟨n, high, rfl⟩ |
    ⟨n, high, rfl⟩ | alone
  · exact absurd ⟨_, by rw [encode_one small]⟩ beyond
  · have within := within_usual (Nat.zero_lt_succ 63)
    exact absurd ((reads_two low high).leads 0 (by decide) within).of_append beyond
  · obtain ⟨x, first, low, surrogate⟩ : ∃ x < 64, (n = 0 → 32 ≤ x) ∧ (n = 13 → x < 32) :=
      ⟨if n = 0 then 32 else 0, by split_ifs <;> omega⟩
    have within := (within_three first).1 ⟨low, surrogate⟩
    exact absurd ((reads_three high).leads x first within).of_append beyond
  · obtain ⟨x, first, low, last⟩ : ∃ x < 64, (n = 0 → 16 ≤ x) ∧ (n = 4 → x < 16) :=
      ⟨if n = 0 then 16 else 0, by split_ifs <;> omega⟩
    have within := (within_four first).1 ⟨low, last⟩
    exact absurd ((reads_four high).leads x first within).of_append beyond
  · exact alone

/-! ## What is displayed -/

theorem characters_of_displays (displays : Displays bytes shown) :
    characters none bytes = shown := by
  induction displays with
  | nil => rfl
  | character c _ ih => rw [characters_encode, ih]
  | @broken piece rest shown noCharacter size nonempty longest _ ih =>
      by_cases begins : Begins piece
      · obtain ⟨c, front⟩ := begins
        have short : piece ≠ utf8EncodeChar c := by
          rintro rfl
          exact noCharacter c (List.prefix_append _ _)
        obtain ⟨begun, reads⟩ := exists_reads front nonempty short
        cases rest with
        | nil =>
            rw [reads.read, ← ih]
            rfl
        | cons b rest => rw [reads.broken (longest b rfl), ih]
      · obtain ⟨b, rfl⟩ := List.length_eq_one_iff.1 (size.resolve_left begins)
        rw [List.singleton_append, characters, Option.elim_none, start_of_not_begins begins, ← ih]
        rfl

/-- What begins a character goes on as far as it does. -/
theorem exists_longest (begins : Begins piece) (rest : List UInt8) : ∃ more others,
    rest = more ++ others ∧ Begins (piece ++ more) ∧
      ∀ b ∈ others.head?, ¬ Begins (piece ++ more ++ [b]) := by
  induction rest generalizing piece with
  | nil => exact ⟨[], [], rfl, by rwa [List.append_nil], by simp⟩
  | cons b rest ih =>
      by_cases leads : Begins (piece ++ [b])
      · obtain ⟨more, others, rfl, begun, longest⟩ := ih leads
        rw [List.append_assoc, List.singleton_append] at begun longest
        exact ⟨b :: more, others, rfl, begun, longest⟩
      · refine ⟨[], b :: rest, rfl, by rwa [List.append_nil], ?_⟩
        simpa using leads

/-- At the front of bytes there is a piece that goes on as long as it begins a character, for one
byte at least. -/
theorem exists_piece (nonempty : bytes ≠ []) : ∃ piece rest, bytes = piece ++ rest ∧
    (Begins piece ∨ piece.length = 1) ∧ piece ≠ [] ∧ ∀ b ∈ rest.head?, ¬ Begins (piece ++ [b]) := by
  obtain ⟨b, rest, rfl⟩ := List.exists_cons_of_ne_nil nonempty
  by_cases leads : Begins [b]
  · obtain ⟨more, others, rfl, begun, longest⟩ := exists_longest leads rest
    exact ⟨b :: more, others, rfl, .inl begun, List.cons_ne_nil _ _, longest⟩
  · exact ⟨[b], rest, rfl, .inr rfl, List.cons_ne_nil _ _, fun _ _ begins => leads begins.of_append⟩

/-- All bytes are read as something. -/
theorem exists_displays (bytes : List UInt8) : ∃ shown, Displays bytes shown := by
  induction size : bytes.length using Nat.strong_induction_on generalizing bytes with
  | _ size ih =>
      subst size
      by_cases nonempty : bytes = []
      · exact ⟨[], nonempty ▸ .nil⟩
      -- What is left behind the front is shorter.
      have shorter {front rest : List UInt8} (some : front ≠ []) :
          rest.length < (front ++ rest).length := by
        have := List.length_pos_iff.2 some
        rw [List.length_append]
        omega
      by_cases character : ∃ c, utf8EncodeChar c <+: bytes
      · obtain ⟨c, rest, rfl⟩ := character
        obtain ⟨shown, displays⟩ := ih _ (shorter String.utf8EncodeChar_ne_nil) rest rfl
        exact ⟨_, .character c displays⟩
      · obtain ⟨piece, rest, rfl, length, some, longest⟩ := exists_piece nonempty
        obtain ⟨shown, displays⟩ := ih _ (shorter some) rest rfl
        exact ⟨_, .broken (not_exists.1 character) length some longest displays⟩

/-- **Bytes are read as characters and pieces that belong to none.** -/
theorem characters_eq_iff : characters none bytes = shown ↔ Displays bytes shown := by
  refine ⟨?_, characters_of_displays⟩
  rintro rfl
  obtain ⟨shown, displays⟩ := exists_displays bytes
  rwa [characters_of_displays displays]

/-- A raw text is displayed with its characters, and with a replacement character for each piece
that belongs to none. -/
theorem display_of_displays (displays : Displays t.bytes shown) :
    t.display = String.ofList (shown.map (·.getD '\ufffd')) := by
  rw [display, characters_of_displays displays]
  rfl

/-! ## Texts -/

/-- **A text is displayed as it is.** -/
@[simp] theorem display_ofString (text : String) : (ofString text).display = text := by
  have all (cs : List Char) : characters none (cs.flatMap utf8EncodeChar) = cs.map some := by
    induction cs with
    | nil => rfl
    | cons c cs ih => rw [List.flatMap_cons, characters_encode, ih, List.map_cons]
  rw [display, ofString, all, List.map_map]
  simp

theorem ofString_inj {text other : String} : ofString text = ofString other ↔ text = other := by
  refine ⟨fun same => ?_, congrArg _⟩
  rw [← display_ofString text, same, display_ofString]

@[simp] theorem ofString_append (front back : String) :
    ofString (front ++ back) = ofString front ++ ofString back := by
  rw [ofString, String.toList_append, List.flatMap_append]
  rfl

theorem text?_eq_some_iff : t.text? = some text ↔ t = ofString text := by
  rw [text?, Option.ite_none_right_eq_some, Option.some.injEq]
  constructor
  · rintro ⟨same, rfl⟩
    exact same.symm
  · rintro rfl
    simp

/-- The bytes of a text. -/
def IsText (t : RawText) : Prop :=
  ∃ text : String, t = ofString text

/-- A raw text is a text exactly if nothing is lost when it is displayed. -/
theorem isText_iff : t.IsText ↔ ofString t.display = t := by
  refine ⟨?_, fun same => ⟨_, same.symm⟩⟩
  rintro ⟨text, rfl⟩
  rw [display_ofString]

instance (t : RawText) : Decidable t.IsText :=
  decidable_of_iff _ isText_iff.symm

theorem IsText.append {other : RawText} (isText : t.IsText) (isText' : other.IsText) :
    (t ++ other).IsText := by
  obtain ⟨front, rfl⟩ := isText
  obtain ⟨back, rfl⟩ := isText'
  exact ⟨front ++ back, (ofString_append front back).symm⟩

/-! ## Order -/

instance : Trans (fun a b : RawText => a < b) (fun a b => a < b) (fun a b => a < b) where
  trans first second := List.lt_trans first second

instance : Std.Irrefl (fun a b : RawText => a < b) where
  irrefl a := List.lt_irrefl a.bytes

instance : Std.Asymm (fun a b : RawText => a < b) where
  asymm _ _ := List.lt_asymm

instance : Std.Trichotomous (fun a b : RawText => a < b) where
  trichotomous a b before behind := by
    have same : a.bytes = b.bytes := List.le_antisymm (List.not_lt.1 behind) (List.not_lt.1 before)
    cases a
    cases b
    exact congrArg mk same

end PackageRecipe.RawText
