/-!
# Raw texts

A file system names things by bytes, which need not be those of a text in UTF-8. A
text stands for its bytes; what is no text is still displayed, with a replacement
character for each piece that belongs to no character.
-/

namespace PackageRecipe

/-- The name of a file, or a path: bytes in UTF-8 or not. -/
structure RawText where
  bytes : List UInt8
deriving DecidableEq, Repr, Inhabited

namespace RawText

/-- The bytes of a text. -/
def ofString (text : String) : RawText :=
  ⟨text.toList.flatMap String.utf8EncodeChar⟩

instance : Coe String RawText := ⟨ofString⟩

instance : Append RawText := ⟨fun front back => ⟨front.bytes ++ back.bytes⟩⟩

/-- Raw texts are ordered byte by byte. -/
instance : LT RawText := ⟨fun a b => a.bytes < b.bytes⟩

instance (a b : RawText) : Decidable (a < b) :=
  inferInstanceAs (Decidable (a.bytes < b.bytes))

/-! ## Displaying -/

/-- A character of which some bytes are still to come: the bits that were read, the bounds
of the next byte, and how many bytes follow that one. -/
structure Begun where
  bits : Nat
  low : UInt8
  high : UInt8
  more : Nat
deriving DecidableEq, Repr

/-- What begins with a byte that is not of ASCII. The bounds of the second byte leave out
what could be written with less bytes, surrogates, and what lies beyond the last character. -/
def Begun.ofLead? (lead : UInt8) : Option Begun :=
  if 0xC2 ≤ lead ∧ lead ≤ 0xDF then some ⟨lead.toNat - 0xC0, 0x80, 0xBF, 0⟩
  else if 0xE0 ≤ lead ∧ lead ≤ 0xEF then
    some ⟨lead.toNat - 0xE0, if lead = 0xE0 then 0xA0 else 0x80,
      if lead = 0xED then 0x9F else 0xBF, 1⟩
  else if 0xF0 ≤ lead ∧ lead ≤ 0xF4 then
    some ⟨lead.toNat - 0xF0, if lead = 0xF0 then 0x90 else 0x80,
      if lead = 0xF4 then 0x8F else 0xBF, 2⟩
  else none

/-- A byte where no character has begun: what is read, and the character that begins. -/
def start (b : UInt8) : List (Option Char) × Option Begun :=
  if b < 0x80 then ([some (Char.ofNat b.toNat)], none)
  else match Begun.ofLead? b with
    | none => ([none], none)
    | some begun => ([], some begun)

/-- A byte behind those of a character that has begun. If it does not belong to that one,
it starts anew. -/
def Begun.continue (begun : Begun) (b : UInt8) : List (Option Char) × Option Begun :=
  if begun.low ≤ b ∧ b ≤ begun.high then
    let bits := 64 * begun.bits + (b.toNat - 0x80)
    match begun.more with
    | 0 => ([some (Char.ofNat bits)], none)
    | more + 1 => ([], some ⟨bits, 0x80, 0xBF, more⟩)
  else (none :: (start b).1, (start b).2)

/-- The characters of bytes, which may follow those of a character that has begun. There
is none for a piece that belongs to no character. -/
def characters (begun : Option Begun) : List UInt8 → List (Option Char)
  | [] => if begun.isSome then [none] else []
  | b :: rest =>
    let (read, next) := begun.elim (start b) (·.continue b)
    read ++ characters next rest

/-- What stands for a piece that belongs to no character. -/
def replacement : Char := '\ufffd'

/-- How a raw text is displayed. -/
def display (t : RawText) : String :=
  String.ofList ((characters none t.bytes).map (·.getD replacement))

/-- The text whose bytes these are, unless they are no UTF-8. -/
def text? (t : RawText) : Option String :=
  if ofString t.display = t then some t.display else none

end RawText

end PackageRecipe
