/-!
# Percent-encoding

Characters that may not stand for themselves in a part of a URL are written as
the bytes of their UTF-8 encoding, each as a percent sign and two hexadecimal
digits. Main statement: `decode_encode`.
-/

namespace PackageRecipe.Url.Percent

/-- The digit of a number below 16, a capital letter from ten on. -/
def hexDigit (n : Nat) : Char :=
  if n < 10 then Char.ofNat ('0'.toNat + n) else Char.ofNat ('A'.toNat + (n - 10))

/-- The value of a hexadecimal digit. -/
def hexValue? (c : Char) : Option Nat :=
  if '0' ≤ c ∧ c ≤ '9' then some (c.toNat - '0'.toNat)
  else if 'A' ≤ c ∧ c ≤ 'F' then some (c.toNat - 'A'.toNat + 10)
  else if 'a' ≤ c ∧ c ≤ 'f' then some (c.toNat - 'a'.toNat + 10)
  else none

theorem hexValue?_hexDigit (n : Nat) (h : n < 16) : hexValue? (hexDigit n) = some n := by
  have all : ∀ m ∈ List.range 16, hexValue? (hexDigit m) = some m := by decide
  exact all n (List.mem_range.mpr h)

/-- The written form of a byte. -/
def encodeByte (b : UInt8) : List Char :=
  ['%', hexDigit (b.toNat / 16), hexDigit (b.toNat % 16)]

/-- The written form of a character, which is itself if it is plain. -/
def encodeChar (plain : Char → Bool) (c : Char) : List Char :=
  if plain c then [c] else (String.utf8EncodeChar c).flatMap encodeByte

/-- A text with all but its plain characters percent-encoded. -/
def encode (plain : Char → Bool) (text : List Char) : List Char :=
  text.flatMap (encodeChar plain)

/-- Bytes as they are written if they need not be those of a text. Plain are characters of
ASCII at most. -/
def encodeBytes (plain : Char → Bool) (bytes : List UInt8) : List Char :=
  bytes.flatMap fun b =>
    if b < 0x80 && plain (Char.ofNat b.toNat) then [Char.ofNat b.toNat] else encodeByte b

/-- The bytes that a percent-encoded text stands for. A percent sign without two
hexadecimal digits after it stands for itself. -/
def decode : List Char → List UInt8
  | [] => []
  | '%' :: a :: b :: r =>
    match hexValue? a, hexValue? b with
    | some m, some n => UInt8.ofNat (16 * m + n) :: decode r
    | _, _ => String.utf8EncodeChar '%' ++ decode (a :: b :: r)
  | c :: r => String.utf8EncodeChar c ++ decode r

theorem decode_cons_of_ne {c : Char} (h : c ≠ '%') (r : List Char) :
    decode (c :: r) = String.utf8EncodeChar c ++ decode r := by
  rw [decode]
  rintro a b t rfl
  exact absurd rfl h

theorem decode_encodeByte_append (b : UInt8) (r : List Char) :
    decode (encodeByte b ++ r) = b :: decode r := by
  have hb : b.toNat < 256 := b.toNat_lt
  have hi := hexValue?_hexDigit (b.toNat / 16) (by omega)
  have lo := hexValue?_hexDigit (b.toNat % 16) (by omega)
  have e : UInt8.ofNat (16 * (b.toNat / 16) + b.toNat % 16) = b := by
    rw [Nat.div_add_mod]; simp
  simp only [encodeByte, List.cons_append, List.nil_append, decode, hi, lo, e]

theorem decode_encodeBytes_append (bs : List UInt8) (r : List Char) :
    decode (bs.flatMap encodeByte ++ r) = bs ++ decode r := by
  induction bs with
  | nil => rfl
  | cons b bs ih =>
    rw [List.flatMap_cons, List.append_assoc, decode_encodeByte_append, ih, List.cons_append]

/-- What was written decodes to the bytes of the text, unless a percent sign is
plain. -/
theorem decode_encode {plain : Char → Bool} (h : plain '%' = false) (text : List Char) :
    decode (encode plain text) = text.flatMap String.utf8EncodeChar := by
  induction text with
  | nil => rfl
  | cons c r ih =>
    have ih : decode (r.flatMap (encodeChar plain)) = _ := ih
    rw [encode, List.flatMap_cons, List.flatMap_cons, ← ih]
    unfold encodeChar
    split
    next hc =>
      have : c ≠ '%' := by rintro rfl; simp [h] at hc
      exact decode_cons_of_ne this _
    next => exact decode_encodeBytes_append _ _

/-- The text that a list of bytes encodes, unless it is no UTF-8. -/
def text? (bytes : List UInt8) : Option String :=
  String.fromUTF8? ⟨bytes.toArray⟩

/-- A letter or a digit of ASCII. -/
def isAlphanumeric (c : Char) : Bool :=
  ('a' ≤ c ∧ c ≤ 'z') ∨ ('A' ≤ c ∧ c ≤ 'Z') ∨ ('0' ≤ c ∧ c ≤ '9')

/-- The characters that stand for themselves in every part of a URL. -/
def isUnreserved (c : Char) : Bool :=
  isAlphanumeric c || ['-', '_', '.', '~'].contains c

/-- A text as a component of a URL, whose reserved characters are encoded. -/
def component (text : String) : String :=
  String.ofList (encode isUnreserved text.toList)

end PackageRecipe.Url.Percent
