import ArgFill.Text.CharClass

/-!
# Readers

A reader takes something from the front of a text and gives it back with the rest, or refuses.
Texts come here with plain line feeds as line ends.

* `Reader.many` : a reader over and over, as often as it accepts;
* `Reader.separated` : things with a separator between them;
* `skipGaps`, `skipLayout` : the rest behind blanks, and behind blanks, line ends and comments;
* `lineEnd?` : the rest behind the end of a line, which may carry a comment.
-/

namespace ArgFill.Toml

/-- Takes something from the front of a text. -/
abbrev Reader (α : Type) := Text → Option (α × Text)

namespace Reader

def or {α : Type} (first second : Reader α) : Reader α := fun t => (first t).or (second t)

def char (c : Char) : Reader Unit
  | [] => none
  | d :: t => if d = c then some ((), t) else none

def word (w : String) : Reader Unit := fun t =>
  if Text.startsWith t w.toList then some ((), t.drop w.length) else none

/-- A reader as often as it accepts, at most `fuel` times. -/
def manyUpTo {α : Type} (r : Reader α) : Nat → Text → List α × Text
  | 0, t => ([], t)
  | fuel + 1, t =>
    match r t with
    | none => ([], t)
    | some (a, rest) =>
      let (others, rest) := manyUpTo r fuel rest
      (a :: others, rest)

/-- A reader that takes at least one character, as often as it accepts. -/
def many {α : Type} (r : Reader α) (t : Text) : List α × Text := manyUpTo r t.length t

def separated {α : Type} (item : Reader α) (separator : Char) : Reader (List α) := fun t => do
  let (first, rest) ← item t
  let next : Reader α := fun t => do
    let (_, rest) ← char separator t
    item rest
  let (others, rest) := many next rest
  pure (first :: others, rest)

end Reader

def skipGaps (t : Text) : Text := t.dropWhile isGap

/-- A character that may stand in a comment, and in a text between quotes: no control character but
the tab. -/
def isPlain (c : Char) : Bool := c == '\t' || (c.toNat ≥ 0x20 && c.toNat != 0x7F)

def skipComment (t : Text) : Text :=
  match t with
  | '#' :: rest => rest.dropWhile isPlain
  | _ => t

/-- The rest of a text behind blanks, line ends and comments, of which there are `fuel` at most. -/
def skipLayoutUpTo : Nat → Text → Text
  | 0, t => t
  | fuel + 1, t =>
    match skipComment (skipGaps t) with
    | '\n' :: rest => skipLayoutUpTo fuel rest
    | rest => rest

def skipLayout (t : Text) : Text := skipLayoutUpTo t.length t

/-- The rest of a text behind the end of a line: blanks, a comment, then a line feed or the end. -/
def lineEnd? (t : Text) : Option Text :=
  match skipComment (skipGaps t) with
  | [] => some []
  | '\n' :: rest => some rest
  | _ => none

end ArgFill.Toml
