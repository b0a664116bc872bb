import ArgFill.Text.Basic

/-!
# Pairs of brackets

The two characters around an argument list. `Brackets.closing?` finds the end of the list that a
bracket opens: the first closing bracket that is not the partner of an opening one in between.
Quotes and comments mean nothing to it. Where both brackets are the same character, that character
only opens, and nothing ends.
-/

namespace ArgFill

/-- The characters that open and close an argument list. -/
structure Brackets where
  opening : Char
  closing : Char
  deriving DecidableEq, Repr

namespace Brackets

def round : Brackets := ⟨'(', ')'⟩

instance : Inhabited Brackets := ⟨round⟩

/-- The byte offset of the bracket that closes `depth` lists inside the one wanted and then that
one, in a text that begins at byte `offset`. -/
def closingFrom? (b : Brackets) : Nat → Nat → Text → Option Nat
  | _, _, [] => none
  | depth, offset, c :: t =>
    if c = b.opening then closingFrom? b (depth + 1) (offset + c.utf8Size) t
    else if c = b.closing then
      match depth with
      | 0 => some offset
      | depth + 1 => closingFrom? b depth (offset + c.utf8Size) t
    else closingFrom? b depth (offset + c.utf8Size) t

/-- The byte offset of the bracket that closes the list in which a text begins. -/
def closing? (b : Brackets) (offset : Nat) (t : Text) : Option Nat := closingFrom? b 0 offset t

end Brackets

end ArgFill
