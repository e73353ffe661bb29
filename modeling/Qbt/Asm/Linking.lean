import Qbt.Asm.Text

/-!
# The names of a text

The text of a function defines its symbol once and in front, no label twice, and every label
that a branch goes to; and it ends with a return, so that control does not run into the text of
the next function. Whether the names themselves are such that an assembler takes them is another
matter: the parser lets a name in quotes be any text.
-/

namespace Qbt.Asm

section Lines

variable {m : Fn} {b : Blk} {lines text : List Line}

end Lines

end Qbt.Asm
