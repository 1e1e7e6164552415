/-!
# Code units

A console counts a text in 16-bit code units: a character of the basic plane is one unit, any other
character is a pair of surrogates. A text was decoded from bytes when it gets here, and decoding
never gives half of a pair.
-/

namespace LC3.Text

/-- The code units of a character. -/
def unitsOfChar (c : Char) : List Nat :=
  if c.toNat < 0x10000 then
    [c.toNat]
  else
    [0xd800 + (c.toNat - 0x10000) / 0x400, 0xdc00 + (c.toNat - 0x10000) % 0x400]

/-- The code units of a text. -/
def units (s : String) : List Nat := s.toList.flatMap unitsOfChar

end LC3.Text
