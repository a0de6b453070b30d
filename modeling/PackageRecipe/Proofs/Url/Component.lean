import Mathlib
import PackageRecipe.Url

/-!
# Components of URLs

A text that is percent-encoded as a component of a URL stays as it is when the URL is read, and
the text is found again in it.

## Main Results

* `Url.Percent.text?_component` — a component decodes to its text
* `Url.addSegment_component` — a component is one segment of a path, unless its text is one or
  two dots

## Design Notes

A segment that counts as dots may be encoded in part, so it is compared with the text that it
decodes to (`decode_of_isDoubleDot`) and not with its characters.  No other text is encoded so,
since a component decodes to its text alone.
-/

namespace PackageRecipe.Url

variable {text : String} {cs : List Char} {c : Char}

namespace Percent

/-- The characters of components: those that stand for themselves, percent signs and digits. -/
def isComponentChar (c : Char) : Bool :=
  isUnreserved c || c == '%'

theorem isComponentChar_hexDigit {n : ℕ} (small : n < 16) :
    isComponentChar (hexDigit n) = true := by
  have all : ∀ m < 16, isComponentChar (hexDigit m) = true := by decide
  exact all n small

theorem isComponentChar_of_mem (member : c ∈ (component text).toList) :
    isComponentChar c = true := by
  rw [component, String.toList_ofList, encode, List.mem_flatMap] at member
  obtain ⟨d, -, member⟩ := member
  unfold encodeChar at member
  split_ifs at member with plain
  · obtain rfl := List.mem_singleton.1 member
    simp [isComponentChar, plain]
  · obtain ⟨b, -, member⟩ := List.mem_flatMap.1 member
    have : b.toNat < 256 := b.toNat_lt
    simp only [encodeByte, List.mem_cons, List.not_mem_nil, or_false] at member
    obtain rfl | rfl | rfl := member
    · rfl
    · exact isComponentChar_hexDigit (by omega)
    · exact isComponentChar_hexDigit (by omega)

/-- What holds of all characters of components that are ASCII holds of all of them. -/
theorem of_isComponentChar {p : Char → Bool} (inside : isComponentChar c = true)
    (ascii : ∀ n < 128, isComponentChar (Char.ofNat n) = true → p (Char.ofNat n) = true) :
    p c = true := by
  have small : c.toNat < 128 := by
    have letter (last : Char) (below : c ≤ last) (ascii : last.toNat < 128) : c.toNat < 128 :=
      lt_of_le_of_lt (UInt32.le_iff_toNat_le.1 below) ascii
    simp only [isComponentChar, isUnreserved, isAlphanumeric, Bool.or_eq_true, decide_eq_true_eq,
      List.contains_eq_mem, List.mem_cons, List.not_mem_nil, or_false, beq_iff_eq] at inside
    obtain ((range | range | range) | rfl | rfl | rfl | rfl) | rfl := inside
    · exact letter 'z' range.2 (by decide)
    · exact letter 'Z' range.2 (by decide)
    · exact letter '9' range.2 (by decide)
    all_goals decide
  simpa using ascii c.toNat small (by simpa using inside)

theorem encode_eq_self {plain : Char → Bool} (all : ∀ c ∈ cs, plain c = true) :
    encode plain cs = cs := by
  induction cs with
  | nil => rfl
  | cons c cs ih =>
      obtain ⟨first, others⟩ := List.forall_mem_cons.1 all
      rw [encode, List.flatMap_cons, encodeChar, if_pos first]
      exact congrArg _ (ih others)

/-- Bytes that encode a text decode to it. -/
theorem text?_utf8 (cs : List Char) :
    text? (cs.flatMap String.utf8EncodeChar) = some (String.ofList cs) := by
  have bytes : (⟨(cs.flatMap String.utf8EncodeChar).toArray⟩ : ByteArray) = cs.utf8Encode := by
    ext1
    simp [List.utf8Encode]
  rw [text?, bytes, String.fromUTF8?, dif_pos ByteArray.isValidUTF8_utf8Encode]
  rfl

/-- **A component decodes to its text.** -/
theorem text?_component (text : String) : text? (decode (component text).toList) = some text := by
  rw [component, String.toList_ofList, decode_encode (by decide), text?_utf8, String.ofList_toList]

theorem component_inj {other : String} : component text = component other ↔ text = other := by
  refine ⟨fun same => ?_, congrArg component⟩
  have decoded := text?_component text
  rw [same, text?_component] at decoded
  exact (Option.some.inj decoded).symm

end Percent

open Percent

/-! ## Segments of paths -/

theorem isSingleDot_iff : isSingleDot cs = true ↔
    cs.map Host.lower = ['.'] ∨ cs.map Host.lower = ['%', '2', 'e'] := by
  simp only [isSingleDot, Bool.or_eq_true, beq_iff_eq, ← String.toList_inj, String.toList_ofList]
  rfl

/-- Two dots are a dot behind a dot, each encoded or not. -/
theorem exists_of_isDoubleDot (dots : isDoubleDot cs = true) :
    ∃ front back, cs = front ++ back ∧ isSingleDot front = true ∧ isSingleDot back = true := by
  have forms : ∃ x y, cs.map Host.lower = x ++ y ∧ (x = ['.'] ∨ x = ['%', '2', 'e']) ∧
      (y = ['.'] ∨ y = ['%', '2', 'e']) := by
    simp only [isDoubleDot, List.contains_eq_mem, List.mem_cons, List.not_mem_nil, or_false,
      decide_eq_true_eq, ← String.toList_inj, String.toList_ofList] at dots
    obtain dots | dots | dots | dots := dots
    · exact ⟨['.'], ['.'], dots, by simp⟩
    · exact ⟨['.'], ['%', '2', 'e'], dots, by simp⟩
    · exact ⟨['%', '2', 'e'], ['.'], dots, by simp⟩
    · exact ⟨['%', '2', 'e'], ['%', '2', 'e'], dots, by simp⟩
  obtain ⟨x, y, lowered, first, second⟩ := forms
  obtain ⟨front, back, rfl, rfl, rfl⟩ := List.map_eq_append_iff.1 lowered
  exact ⟨front, back, rfl, isSingleDot_iff.2 first, isSingleDot_iff.2 second⟩

/-- A character is as it is in lower case, or a capital. -/
theorem lower_cases {d : Char} (lowered : Host.lower c = d) :
    c = d ∨ ∃ n < 26, c = Char.ofNat (65 + n) ∧ d = Char.ofNat (97 + n) := by
  unfold Host.lower at lowered
  split_ifs at lowered with capital
  · have lo : 65 ≤ c.toNat := UInt32.le_iff_toNat_le.1 capital.1
    have hi : c.toNat ≤ 90 := UInt32.le_iff_toNat_le.1 capital.2
    refine .inr ⟨c.toNat - 65, by omega, ?_, ?_⟩
    · rw [Nat.add_sub_cancel' lo, Char.ofNat_toNat]
    · rw [← lowered]
      congr 1
      omega
  · exact .inl lowered

/-- A single dot decodes to the byte of a dot. -/
theorem decode_append_of_isSingleDot (dot : isSingleDot cs = true) (r : List Char) :
    decode (cs ++ r) = '.'.toNat.toUInt8 :: decode r := by
  have same {d e : Char} (lowered : Host.lower d = e)
      (noLetter : ∀ n < 26, e ≠ Char.ofNat (97 + n)) : d = e := by
    obtain same | ⟨n, small, -, letter⟩ := lower_cases lowered
    · exact same
    · exact absurd letter (noLetter n small)
  obtain lowered | lowered := isSingleDot_iff.1 dot
  · obtain ⟨d, rfl, plain⟩ := List.map_eq_singleton_iff.1 lowered
    obtain rfl := same plain (by decide)
    rfl
  · simp only [List.map_eq_cons_iff, List.map_eq_nil_iff] at lowered
    obtain ⟨d, _, rfl, percent, e, _, rfl, two, f, _, rfl, six, rfl⟩ := lowered
    obtain rfl := same percent (by decide)
    obtain rfl := same two (by decide)
    have digit : f = 'e' ∨ f = 'E' := by
      obtain same | ⟨n, small, rfl, letter⟩ := lower_cases six
      · exact .inl same
      · have only : ∀ n < 26, 'e' = Char.ofNat (97 + n) → Char.ofNat (65 + n) = 'E' := by decide
        exact .inr (only n small letter)
    obtain rfl | rfl := digit <;> rfl

theorem decode_of_isSingleDot (dot : isSingleDot cs = true) : text? (decode cs) = some "." := by
  rw [← List.append_nil cs, decode_append_of_isSingleDot dot]
  exact text?_utf8 ['.']

theorem decode_of_isDoubleDot (dots : isDoubleDot cs = true) : text? (decode cs) = some ".." := by
  obtain ⟨front, back, rfl, first, second⟩ := exists_of_isDoubleDot dots
  rw [← List.append_nil back, decode_append_of_isSingleDot first,
    decode_append_of_isSingleDot second]
  exact text?_utf8 ['.', '.']

theorem isSingleDot_component_iff : isSingleDot (component text).toList = true ↔ text = "." := by
  constructor
  · intro dot
    have decoded := decode_of_isSingleDot dot
    rw [text?_component] at decoded
    exact Option.some.inj decoded
  · rintro rfl
    decide

theorem isDoubleDot_component_iff : isDoubleDot (component text).toList = true ↔ text = ".." := by
  constructor
  · intro dots
    have decoded := decode_of_isDoubleDot dots
    rw [text?_component] at decoded
    exact Option.some.inj decoded
  · rintro rfl
    decide

theorem shorten_false (names : List String) : shorten false names = names.dropLast := by
  obtain _ | ⟨name, _ | ⟨other, names⟩⟩ := names <;> rfl

/-- **A component is one segment of a path**, unless its text is one or two dots: one dot is none,
and two dots take away the segment in front of them. -/
theorem addSegment_component (isLast : Bool) (names : List String) (text : String) :
    addSegment false isLast names (component text).toList =
      if text = ".." then names.dropLast ++ (if isLast then [""] else [])
      else if text = "." then names ++ (if isLast then [""] else [])
      else names ++ [component text] := by
  have plain : ∀ c ∈ (component text).toList, isPlainInPath c = true :=
    fun c member => of_isComponentChar (isComponentChar_of_mem member) (by decide)
  rw [addSegment, encoded, encode_eq_self plain, String.ofList_toList]
  simp only [isDoubleDot_component_iff, isSingleDot_component_iff, shorten_false,
    Bool.false_and, Bool.false_eq_true, if_false]
  cases isLast <;> simp

end PackageRecipe.Url
