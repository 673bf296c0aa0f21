/-!
# Hexadecimal numerals

The three ways a 64-bit word is written.

* `Hex.lower`: `0x` and the digits, lower case, without padding.
* `Hex.upper`: `0x` and the digits, upper case, without padding.
* `Hex.padded`: `0x` and exactly sixteen upper-case digits.
-/

namespace PagedKernel.Hex

/-- The hexadecimal digits of a word, most significant first; zero has the single digit `0`. -/
def digits (w : UInt64) : List Char := Nat.toDigits 16 w.toNat

def lower (w : UInt64) : String := "0x" ++ String.ofList (digits w)

def upper (w : UInt64) : String := "0x" ++ String.ofList ((digits w).map Char.toUpper)

/-- Upper-case numeral padded with zeros to the sixteen digits of a word. -/
def padded (w : UInt64) : String :=
  "0x" ++ String.ofList (((digits w).map Char.toUpper).leftpad 16 '0')

end PagedKernel.Hex
