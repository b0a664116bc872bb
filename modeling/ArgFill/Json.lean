import ArgFill.Text.Basic

/-!
# Writing JSON

`Json.pretty` writes a value over several lines: two spaces for each level, `": "` behind a key,
the keys in the order given, and an empty list as `[]`. Strings keep every character but quotes,
backslashes and control characters.
-/

namespace ArgFill

/-- A value to write. -/
inductive Json where
  | text (content : Text)
  | number (n : Nat)
  | truth (b : Bool)
  | list (items : List Json)
  | object (entries : List (String × Json))

namespace Json

def escapedChar (c : Char) : Text :=
  if c = '"' then ['\\', '"']
  else if c = '\\' then ['\\', '\\']
  else if c = '\n' then ['\\', 'n']
  else if c = '\r' then ['\\', 'r']
  else if c = '\t' then ['\\', 't']
  else if c = '\x08' then ['\\', 'b']
  else if c = '\x0c' then ['\\', 'f']
  else if c.toNat < 0x20 then
    ['\\', 'u', '0', '0', Nat.digitChar (c.toNat / 16), Nat.digitChar (c.toNat % 16)]
  else [c]

def quoted (t : Text) : Text := '"' :: t.flatMap escapedChar ++ ['"']

def newLine (level : Nat) : Text := '\n' :: List.replicate (2 * level) ' '

mutual

/-- A value whose first line is already indented, with its further lines at a level. -/
def write (level : Nat) : Json → Text
  | text content => quoted content
  | number n => (Nat.repr n).toList
  | truth b => (if b then "true" else "false").toList
  | list [] => ['[', ']']
  | list (item :: items) =>
    '[' :: newLine (level + 1) ++ write (level + 1) item ++ writeItems level items
  | object [] => ['\x7b', '\x7d']
  | object (entry :: entries) =>
    '\x7b' :: newLine (level + 1) ++ writeEntry (level + 1) entry ++ writeEntries level entries

def writeEntry (level : Nat) : String × Json → Text
  | (key, value) => quoted key.toList ++ [':', ' '] ++ write level value

/-- The items behind the first one, and the end of their list. -/
def writeItems (level : Nat) : List Json → Text
  | [] => newLine level ++ [']']
  | item :: items => ',' :: newLine (level + 1) ++ write (level + 1) item ++ writeItems level items

def writeEntries (level : Nat) : List (String × Json) → Text
  | [] => newLine level ++ ['\x7d']
  | entry :: entries =>
    ',' :: newLine (level + 1) ++ writeEntry (level + 1) entry ++ writeEntries level entries

end

def pretty (json : Json) : Text := json.write 0

end Json

end ArgFill
