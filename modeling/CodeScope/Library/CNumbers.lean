import CodeScope.Library.Text

/-! # Numbers read by the C library

`strtol` skips white space, reads a sign and decimal digits, and stops at anything else; the result
is held at the limits of 64 bits. `atoi` is its low 32 bits, signed. -/

namespace CNumbers

open Text

/-- `isspace` of the C locale. -/
def isspace (c : Char) : Bool := c ∈ [' ', '\t', '\n', '\x0b', '\x0c', '\r']

/-- The number of a run of decimal digits. -/
def decimal (digits : Str) : ℕ := Nat.ofDigitChars 10 digits 0

/-- The digits at the front of a text. -/
def leadingDigits (s : Str) : Str := s.takeWhile Char.isDigit

def strtol (s : Str) : ℤ :=
  let s := s.dropWhile isspace
  let n : ℤ :=
    match s with
    | '-' :: rest => -(decimal (leadingDigits rest) : ℤ)
    | '+' :: rest => decimal (leadingDigits rest)
    | s => decimal (leadingDigits s)
  max (-2 ^ 63) (min (2 ^ 63 - 1) n)

/-- A value in 32 bits, signed. -/
def toInt32 (n : ℤ) : ℤ := Int.bmod n (2 ^ 32)

def atoi (s : Str) : ℤ := toInt32 (strtol s)

theorem toInt32_eq_self {n : ℤ} (hlow : -2 ^ 31 ≤ n) (hhigh : n < 2 ^ 31) : toInt32 n = n := by
  unfold toInt32
  rw [Int.bmod_eq_of_le] <;> omega

end CNumbers
