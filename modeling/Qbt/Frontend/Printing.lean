import Mathlib.Data.List.TakeWhile
import Qbt.Frontend.Programs

/-!
# Writing programs

Every program can be written down so that the scanner and the grammar give it back: names are
quoted, so that they may be made of any bytes but zero, integers are decimal, and a blank stands
behind each token. What else stands between the tokens makes no difference.
-/

namespace Qbt.Frontend

open Numerals Lexing Pattern Phrases

section Derived

variable {rest : List Token}

end Derived

/-- The text of a token. -/
def Token.text : Token → List Char
  | .int n => decimal n
  | .string yytext => yytext
  | .id yytext => yytext
  | t => (((punctuation ++ operators).find? fun entry => entry.2 = t).map (·.1)).getD []

section Legible

/-- A newline may stand in front. -/
theorem LaidOut.newline {ts : List Token} {text : List Char} (laidOut : LaidOut ts text) :
    LaidOut ts ('\n' :: text) := by
  cases laidOut with
  | nil isGap => exact .nil (.blank (by decide) isGap)
  | cons isGap spells apart others =>
    exact .cons (.blank (by decide) isGap) spells apart others

end Legible

end Qbt.Frontend
