import Mathlib.Data.Nat.Digits.Lemmas
import Qbt.Frontend.Spelling

/-!
# Names and numbers as texts

`clone_string` of `parser.y` takes the quotes off a text and undoes its escapes. `quote` is
the other way, and `decimal` writes an integer. Both are read back as what they were made of.
-/

namespace Qbt.Frontend

open Numerals Lexing Pattern

/-- The loop of `clone_string`, which stops in front of the last character. -/
def cloneFrom : List Char → List Char
  | '\\' :: c :: rest => matchEscape c :: cloneFrom rest
  | c :: d :: rest => c :: cloneFrom (d :: rest)
  | _ => []

/-- `clone_string`. -/
def cloneString (yytext : List Char) : List Char := cloneFrom yytext.tail

/-- A quote and a backslash need a backslash in front. -/
def escape (c : Char) : List Char := if c = '"' ∨ c = '\\' then ['\\', c] else [c]

/-- A name in quotes. -/
def quote (name : List Char) : List Char := '"' :: (name.flatMap escape ++ ['"'])

/-- The decimal digits of a number. -/
def decimalDigits (n : Nat) : List Char :=
  if n = 0 then ['0'] else (Nat.digits 10 n).reverse.map Nat.digitChar

/-- An integer with decimal digits. -/
def decimal (n : Int) : List Char :=
  if n < 0 then '-' :: decimalDigits n.natAbs else decimalDigits n.natAbs

end Qbt.Frontend
