/-!
# Hexadecimal text

Listings, instruction texts and error messages write numbers with the upper-case digits
`0`–`9` and `A`–`F`, either as short as possible or filled with zeros to a fixed width.
-/

namespace BootImage.Text

/-- The upper-case hexadecimal digits of `n`, most significant first and without leading zeros. -/
def hexDigits (n : Nat) : List Char :=
  (Nat.toDigits 16 n).map Char.toUpper

/-- `n` in hexadecimal, as short as possible. -/
def hex (n : Nat) : String :=
  String.ofList (hexDigits n)

/-- `n` in hexadecimal, filled with zeros on the left to at least `width` digits. -/
def hexPadded (width n : Nat) : String :=
  let digits := hexDigits n
  String.ofList (List.replicate (width - digits.length) '0' ++ digits)

/-- `s` filled with blanks on the right to at least `width` characters. -/
def padRight (width : Nat) (s : String) : String :=
  s ++ String.ofList (List.replicate (width - s.length) ' ')

/-- The number `n` behind the mark `0x`. -/
def hexMarked (n : Nat) : String :=
  "0x" ++ hex n

end BootImage.Text
