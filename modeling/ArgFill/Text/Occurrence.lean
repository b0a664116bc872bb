import ArgFill.Text.CharClass

/-!
# Occurrences of a word in a text

`Text.occurrences` lists, from left to right, the places where a word stands, each with the
character before it and the text after it. Occurrences do not overlap: the search goes on behind
the end of the last one found. The empty word occurs nowhere.
-/

namespace ArgFill

/-- One place where a word stands in a text, with the character before it and the text behind it. -/
structure Occurrence where
  offset : Nat
  before : Option Char
  after : Text
  deriving DecidableEq, Repr

namespace Text

/-- The occurrences of `word` in a text that begins at byte `offset` behind the character `before`;
its first `skip` characters belong to an occurrence already found. -/
def occurrencesFrom (word : Text) : Nat → Option Char → Nat → Text → List Occurrence
  | _, _, _, [] => []
  | skip + 1, _, offset, c :: t => occurrencesFrom word skip (some c) (offset + c.utf8Size) t
  | 0, before, offset, c :: t =>
    if startsWith (c :: t) word then
      ⟨offset, before, (c :: t).drop word.length⟩ ::
        occurrencesFrom word (word.length - 1) (some c) (offset + c.utf8Size) t
    else occurrencesFrom word 0 (some c) (offset + c.utf8Size) t

/-- The occurrences of a word, from left to right and without overlap. -/
def occurrences (t word : Text) : List Occurrence :=
  if word.isEmpty then [] else occurrencesFrom word 0 none 0 t

end Text

end ArgFill
