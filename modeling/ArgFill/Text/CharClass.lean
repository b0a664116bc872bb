import ArgFill.Text.Basic
import ArgFill.Text.Alphanumeric

/-!
# Classes of characters

* `isBlankChar` : the characters with the Unicode property White_Space;
* `isWordChar` : the ASCII letters and digits, `_` and `$`. A name that follows such a character is
  the tail of a longer one;
* `isNameChar` : the characters that keys are made of, letters and numbers of any script included;
* `isGap` : the space and the tab, which may stand inside a line.
-/

namespace ArgFill

/-- The closed ranges of the code points with the property White_Space. -/
def blankRanges : List (Nat × Nat) :=
  [(0x9, 0xD), (0x20, 0x20), (0x85, 0x85), (0xA0, 0xA0), (0x1680, 0x1680), (0x2000, 0x200A),
   (0x2028, 0x2029), (0x202F, 0x202F), (0x205F, 0x205F), (0x3000, 0x3000)]

def isBlankChar (c : Char) : Bool :=
  blankRanges.any fun r => r.1 ≤ c.toNat && c.toNat ≤ r.2

/-- An ASCII letter or digit, `_` or `$`. -/
def isWordChar (c : Char) : Bool := c.isAlphanum || c == '_' || c == '$'

/-- A letter or number of any script, `_` or `$`. -/
def isNameChar (c : Char) : Bool := isAlphanumeric c || c == '_' || c == '$'

def isGap (c : Char) : Bool := c == ' ' || c == '\t'

/-- May a name begin right after this character (after none, at the start of a text)? -/
def endsWord : Option Char → Bool
  | none => true
  | some c => !isWordChar c

namespace Text

def isBlank (t : Text) : Bool := t.all isBlankChar

def isName (t : Text) : Bool := !t.isEmpty && t.all isNameChar

def isQualifiedName (t : Text) : Bool := !t.isEmpty && t.all fun c => isNameChar c || c == '.'

end Text

end ArgFill
