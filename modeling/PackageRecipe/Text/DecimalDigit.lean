/-!
# Decimal digits

The characters of the Unicode general category `Nd`: in every script the ten
digits of positional decimal notation.
-/

namespace PackageRecipe.Text

/-- The first digit of each run of ten consecutive decimal digits from U+0080 on. -/
def digitZeros : Array Nat :=
  #[0x660, 0x6F0, 0x7C0, 0x966, 0x9E6, 0xA66, 0xAE6, 0xB66, 0xBE6, 0xC66, 0xCE6, 0xD66, 0xDE6,
    0xE50, 0xED0, 0xF20, 0x1040, 0x1090, 0x17E0, 0x1810, 0x1946, 0x19D0, 0x1A80, 0x1A90,
    0x1B50, 0x1BB0, 0x1C40, 0x1C50, 0xA620, 0xA8D0, 0xA900, 0xA9D0, 0xA9F0, 0xAA50, 0xABF0,
    0xFF10, 0x104A0, 0x10D30, 0x10D40, 0x11066, 0x110F0, 0x11136, 0x111D0, 0x112F0, 0x11450,
    0x114D0, 0x11650, 0x116C0, 0x116D0, 0x116DA, 0x11730, 0x118E0, 0x11950, 0x11BF0, 0x11C50,
    0x11D50, 0x11DA0, 0x11DE0, 0x11F50, 0x16130, 0x16A60, 0x16AC0, 0x16B50, 0x16D70, 0x1CCF0,
    0x1D7CE, 0x1D7D8, 0x1D7E2, 0x1D7EC, 0x1D7F6, 0x1E140, 0x1E2F0, 0x1E4F0, 0x1E5F1, 0x1E950,
    0x1FBF0]

/-- A character of the Unicode general category `Nd`. -/
def isDecimalDigit (c : Char) : Bool :=
  if c.toNat < 0x80 then c.isDigit
  else digitZeros.any fun z => z ≤ c.toNat && c.toNat < z + 10

/-- Every ASCII digit is a decimal digit. -/
theorem isDecimalDigit_of_isDigit {c : Char} (h : c.isDigit) : isDecimalDigit c := by
  have : c.toNat < 0x80 := by
    simp only [Char.isDigit, Bool.and_eq_true, decide_eq_true_eq, UInt32.le_iff_toNat_le,
      ge_iff_le] at h
    have : c.toNat = c.val.toNat := rfl
    have : '9'.val.toNat = 57 := rfl
    omega
  simp [isDecimalDigit, this, h]

/-- Of the ASCII characters only `0` to `9` are decimal digits. -/
theorem isDigit_of_isDecimalDigit {c : Char} (hc : c.toNat < 0x80) (h : isDecimalDigit c) :
    c.isDigit := by
  simpa [isDecimalDigit, hc] using h

end PackageRecipe.Text
