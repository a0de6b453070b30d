/-!
# Base letters

Latin letters with diacritics or in a varied shape, by the ASCII letter that
they are based on.
-/

namespace PackageRecipe.Text

/-- The varied letters of each base letter. -/
def variedLetters : List (Char × String) :=
  [('A', "ÀÁÂÃÄÅĀĂĄǍǞǠǺȀȂȦȺḀẠẢẤẦẨẪẬẮẰẲẴẶ"),
   ('B', "ƁƂɃḂḄḆ"),
   ('C', "ÇĆĈĊČƇȻḈ"),
   ('D', "ĎĐƊƋḊḌḎḐḒ"),
   ('E', "ÈÉÊËĒĔĖĘĚƎȄȆȨɆḔḖḘḚḜẸẺẼẾỀỂỄỆ"),
   ('F', "ƑḞ"),
   ('G', "ĜĞĠĢƓǤǦǴḠ"),
   ('H', "ĤĦȞḢḤḦḨḪ"),
   ('I', "ÌÍÎÏĨĪĬĮİƗǏȈȊḬḮỈỊ"),
   ('J', "ĴɈ"),
   ('K', "ĶƘǨḰḲḴ"),
   ('L', "ĹĻĽĿŁȽḶḸḺḼ"),
   ('M', "ƜḾṀṂ"),
   ('N', "ÑŃŅŇƝǸȠṄṆṈṊ"),
   ('O', "ÒÓÔÕÖØŌŎŐƟƠǑǪǬǾȌȎȪȬȮȰṌṎṐṒỌỎỐỒỔỖỘỚỜỞỠỢ"),
   ('P', "ƤṔṖ"),
   ('R', "ŔŖŘȐȒɌṘṚṜṞ"),
   ('S', "ŚŜŞŠȘṠṢṤṦṨ"),
   ('T', "ŢŤŦƬƮȚȾṪṬṮṰ"),
   ('U', "ÙÚÛÜŨŪŬŮŰŲƯǓǕǗǙǛȔȖṲṴṶṸṺỤỦỨỪỬỮỰ"),
   ('V', "ƲɅṼṾ"),
   ('W', "ŴẀẂẄẆẈ"),
   ('X', "ẊẌ"),
   ('Y', "ÝŶŸƳȲɎẎỲỴỶỸỾ"),
   ('Z', "ŹŻŽƵȤẐẒẔ"),
   ('a', "àáâãäåāăąǎǟǡǻȁȃȧɐḁẚạảấầẩẫậắằẳẵặ"),
   ('b', "ƀƃɓḃḅḇ"),
   ('c', "çćĉċčƈȼɕḉ"),
   ('d', "ďđƌȡɖɗḋḍḏḑḓ"),
   ('e', "èéêëēĕėęěǝȅȇȩɇɘḕḗḙḛḝẹẻẽếềểễệ"),
   ('f', "ƒḟ"),
   ('g', "ĝğġģǥǧǵɠḡ"),
   ('h', "ĥħȟɥɦʮʯḣḥḧḩḫẖ"),
   ('i', "ìíîïĩīĭįıǐȉȋɨḭḯỉị"),
   ('j', "ĵǰȷɉɟʄʝ"),
   ('k', "ķƙǩʞḱḳḵ"),
   ('l', "ĺļľŀłƚȴɫɬɭḷḹḻḽ"),
   ('m', "ɯɰɱḿṁṃ"),
   ('n', "ñńņňƞǹȵɲɳṅṇṉṋ"),
   ('o', "òóôõöøōŏőơǒǫǭǿȍȏȫȭȯȱṍṏṑṓọỏốồổỗộớờởỡợ"),
   ('p', "ƥṕṗ"),
   ('q', "ɋʠ"),
   ('r', "ŕŗřȑȓɍɹɺɻɼɽɾɿṙṛṝṟ"),
   ('s', "śŝşšșȿʂṡṣṥṧṩ"),
   ('t', "ţťŧƫƭțȶʇʈṫṭṯṱẗ"),
   ('u', "ùúûüũūŭůűųưǔǖǘǚǜȕȗṳṵṷṹṻụủứừửữự"),
   ('v', "ʋʌṽṿ"),
   ('w', "ŵʍẁẃẅẇẉẘ"),
   ('x', "ẋẍ"),
   ('y', "ýÿŷƴȳɏʎẏẙỳỵỷỹỿ"),
   ('z', "źżžƶȥɀʐʑẑẓẕ")]

/-- The ASCII letter that a Latin letter is based on; other characters stand for
themselves. -/
def baseLetter (c : Char) : Char :=
  if c.toNat < 0xC0 then c
  else ((variedLetters.find? fun (_, varied) => varied.toList.contains c).map (·.1)).getD c

/-- ASCII characters are their own base. -/
theorem baseLetter_of_ascii {c : Char} (h : c.toNat < 0xC0) : baseLetter c = c := by
  simp [baseLetter, h]

end PackageRecipe.Text
