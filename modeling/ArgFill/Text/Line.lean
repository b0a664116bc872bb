import ArgFill.Text.CharClass

/-!
# Lines of a text

A line ends behind a line feed; the last one ends with the text.

* `Text.lineStarts` : the byte offsets at which lines begin;
* `Text.lookup` : an offset looked up among them, by halving;
* `Text.position` : line and column of an offset, both from 1, the column in bytes. Offsets beyond
  the end count on in the last line;
* `Text.indentAt?` : the spaces and tabs that the line around an offset begins with;
* `Text.firstLine` : the first line without its line end.
-/

namespace ArgFill

/-- A place in a text as people count: line and column from 1. -/
structure Position where
  line : Nat
  column : Nat
  deriving DecidableEq, Repr

/-- What is known of a number that was looked up in an ascending list: the place at which it stands,
or the place before which it would go in. -/
inductive Lookup where
  | found (place : Nat)
  | absent (next : Nat)
  deriving DecidableEq, Repr

namespace Text

/-- The offsets behind the line feeds of a text that begins at byte `offset`. -/
def lineStartsFrom : Nat → Text → List Nat
  | _, [] => []
  | offset, c :: t =>
    let next := offset + c.utf8Size
    if c = '\n' then next :: lineStartsFrom next t else lineStartsFrom next t

def lineStarts (t : Text) : List Nat := 0 :: lineStartsFrom 0 t

def lineCount (t : Text) : Nat := (lineStarts t).length

/-- The place of the last number up to `offset` among the `size` numbers from place `base` on, if
there is one. Each step looks at the middle of them and drops one half. -/
def narrow (starts : List Nat) (offset base size : Nat) : Nat :=
  if 1 < size then
    let half := size / 2
    narrow starts offset (if offset < starts.getD (base + half) 0 then base else base + half)
      (size - half)
  else base
termination_by size

def lookup (starts : List Nat) (offset : Nat) : Lookup :=
  if starts.isEmpty then .absent 0
  else
    let place := narrow starts offset 0 starts.length
    let start := starts.getD place 0
    if start = offset then .found place
    else .absent (if start < offset then place + 1 else place)

/-- The line of an offset, counted from 0: the one that begins there, or else the one before the
first line that begins behind it. -/
def lineAt (starts : List Nat) (offset : Nat) : Nat :=
  match lookup starts offset with
  | .found place => place
  | .absent next => next - 1

def position (t : Text) (offset : Nat) : Position :=
  let starts := lineStarts t
  let line := lineAt starts offset
  ⟨line + 1, offset - starts.getD line 0 + 1⟩

/-- The part of a text behind its last line feed. -/
def lastLine (t : Text) : Text := (t.reverse.takeWhile (· ≠ '\n')).reverse

/-- The spaces and tabs at the beginning of the line that holds an offset. -/
def indentAt? (t : Text) (offset : Nat) : Option Text := do
  let (front, back) ← cut? offset t
  pure ((lastLine front ++ back).takeWhile isGap)

theorem indentAt?_eq_some_iff {t indent : Text} {offset : Nat} : t.indentAt? offset = some indent ↔
    ∃ front back, t = front ++ back ∧ size front = offset ∧
      indent = (lastLine front ++ back).takeWhile isGap := by
  constructor
  · intro h
    obtain ⟨⟨front, back⟩, hcut, hindent⟩ := Option.bind_eq_some_iff.1 h
    obtain ⟨rfl, hsize⟩ := cut?_eq_some_iff.1 hcut
    exact ⟨front, back, rfl, hsize, (Option.some.inj hindent).symm⟩
  · rintro ⟨front, back, rfl, rfl, rfl⟩
    simp only [indentAt?, cut?_size_append, Option.bind_eq_bind, Option.bind_some, Option.pure_def]

/-- The text up to its first line feed; a carriage return belongs to the line end if the line feed
follows it at once. -/
def firstLine (t : Text) : Text :=
  let line := t.takeWhile (· ≠ '\n')
  if t.contains '\n' && line.getLast? == some '\r' then line.dropLast else line

end Text

end ArgFill
