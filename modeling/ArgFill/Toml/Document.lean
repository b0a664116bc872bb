import ArgFill.Toml.DateTable
import ArgFill.Toml.Quoted
import ArgFill.Toml.Scalar
import ArgFill.Toml.Tree

/-!
# TOML documents

`document?` reads a text as TOML 1.0. A document is a list of statements, one to a line: `key =
value`, `[header]` or `[[header]]`. Values are texts, scalars, arrays and inline tables; arrays and
inline tables nest at most `nestingLimit` deep, and a dotted key has at most as many parts.
-/

namespace ArgFill.Toml

/-- How deep values nest, and how many parts a dotted key has, at most. -/
def nestingLimit : Nat := 79

/-! ## Keys -/

def isBareKeyChar (c : Char) : Bool := c.isAlphanum || c == '_' || c == '-'

def bareKey : Reader Text := fun t =>
  let key := t.takeWhile isBareKeyChar
  if key.isEmpty then none else some (key, t.dropWhile isBareKeyChar)

def keyPart : Reader Text := fun t => do
  let (key, rest) ← Reader.or quotedLine bareKey (skipGaps t)
  pure (key, skipGaps rest)

/-- A key: parts with dots between them. -/
def keyPath : Reader (List Text) := fun t => do
  let (path, rest) ← Reader.separated keyPart '.' t
  if path.length ≤ nestingLimit then some (path, rest) else none

/-! ## Values -/

def pair (value : Reader Datum) : Reader (List Text × Datum) := fun t => do
  let (path, rest) ← keyPath t
  let (_, rest) ← Reader.char '=' rest
  let (datum, rest) ← value (skipGaps rest)
  pure ((path, datum), rest)

/-- The values of an array behind its opening bracket. Blanks, line ends and comments may stand
anywhere between them, and a comma behind the last one. -/
def arrayRest (value : Reader Datum) : Reader Datum := fun t =>
  let item : Reader Datum := fun t => do
    let (datum, rest) ← value (skipLayout t)
    pure (datum, skipLayout rest)
  let (items, rest) :=
    match Reader.separated item ',' t with
    | none => ([], skipLayout t)
    | some (items, rest) =>
      match Reader.char ',' rest with
      | none => (items, rest)
      | some (_, rest) => (items, skipLayout rest)
  (Reader.char ']' rest).map fun (_, rest) => (.list items, rest)

/-- The keys and values of an inline table behind its opening brace, all on one line. -/
def inlineRest (value : Reader Datum) : Reader Datum := fun t => do
  let item : Reader (List Text × Datum) := fun t => do
    let (found, rest) ← pair value t
    pure (found, skipGaps rest)
  let (pairs, rest) := (Reader.separated item ',' t).getD ([], skipGaps t)
  let (_, rest) ← Reader.char '}' rest
  let entries ← pairs.foldlM (fun es (path, datum) => Entries.define path datum es) []
  pure (.table (entriesData entries), rest)

/-- A value in which arrays and inline tables nest at most `room` deep. -/
def value : Nat → Reader Datum
  | _, [] => none
  | room, c :: t =>
    if c = '"' || c = '\'' then (quoted (c :: t)).map fun (s, rest) => (.text s, rest)
    else if c = '[' then
      match room with
      | 0 => none
      | room + 1 => arrayRest (value room) t
    else if c = '\x7b' then
      match room with
      | 0 => none
      | room + 1 => inlineRest (value room) t
    else (scalar (c :: t)).map fun (_, rest) => (.atom, rest)

/-! ## Statements -/

/-- One line of meaning in a document. -/
inductive Statement where
  | define (path : List Text) (datum : Datum)
  | openTable (path : List Text)
  | openElement (path : List Text)

def bareStatement : Reader Statement
  | '[' :: '[' :: t => do
    let (path, rest) ← keyPath t
    let (_, rest) ← Reader.word "]]" rest
    pure (.openElement path, rest)
  | '[' :: t => do
    let (path, rest) ← keyPath t
    let (_, rest) ← Reader.char ']' rest
    pure (.openTable path, rest)
  | t => do
    let ((path, datum), rest) ← pair (value nestingLimit) t
    pure (.define path datum, rest)

/-- A statement with its line end and the empty lines behind it. -/
def statement : Reader Statement := fun t => do
  let (s, rest) ← bareStatement t
  pure (s, skipLayout (← lineEnd? rest))

def statements? (t : Text) : Option (List Statement) :=
  match Reader.many statement (skipLayout t) with
  | (found, []) => some found
  | _ => none

/-- A document on its way: the tables so far, and the header under which definitions come. -/
structure Draft where
  root : Entries
  header : List Text

/-- The draft behind a statement, unless it is at odds with an earlier one. -/
def Draft.add (d : Draft) : Statement → Option Draft
  | .define path datum => (d.root.defineIn d.header path datum).map fun root => ⟨root, d.header⟩
  | .openTable path => (d.root.openTable path).map fun root => ⟨root, path⟩
  | .openElement path => (d.root.openElement path).map fun root => ⟨root, path⟩

/-! ## Documents -/

def plainLineEnds : Text → Text
  | [] => []
  | '\r' :: '\n' :: t => '\n' :: plainLineEnds t
  | c :: t => c :: plainLineEnds t

def skipMark : Text → Text
  | '\ufeff' :: t => t
  | t => t

/-- The entries of a TOML document, in which every table that stands for a date holds one. -/
def document? (t : Text) : Option (List (Text × Datum)) := do
  let found ← statements? (plainLineEnds (skipMark t))
  let draft ← found.foldlM Draft.add ⟨[], []⟩
  let entries := entriesData draft.root
  if entriesHoldDates entries then some entries else none

end ArgFill.Toml
