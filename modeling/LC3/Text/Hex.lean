/-!
# Hexadecimal numbers in messages

Messages show addresses and trap vectors in lower case hexadecimal digits, filled up with zeros on
the left to a least width. Any integer can be shown. The sign of a negative one counts as a
character of its text, so the zeros come before it.
-/

namespace LC3.Text

/-- The digits of an integer, after a sign if it is negative. -/
def hexDigits : Int → List Char
  | .ofNat n => Nat.toDigits 16 n
  | .negSucc n => '-' :: Nat.toDigits 16 (n + 1)

/-- Fills a text up to a least width with zeros on the left. -/
def zeroFill (width : Nat) (text : List Char) : List Char :=
  List.replicate (width - text.length) '0' ++ text

/-- An integer in hexadecimal, at least `width` characters wide, after `0x`. -/
def hex (width : Nat) (n : Int) : String :=
  String.ofList ('0' :: 'x' :: zeroFill width (hexDigits n))

end LC3.Text
