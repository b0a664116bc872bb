import ArgFill.Text.Basic

/-!
# Data

`Datum` is what a data file holds, as far as rule books look at it: texts, lists and tables. All
other values (numbers, truth values, dates) are one and the same `atom`, except the value that
stands for nothing. `Format` says which notions of a record and of an empty value apply:

* `Datum.fields?` : the fields of a record. A record is a table, or a list of the values in the
  order of the fields;
* `Datum.choice?` : the name of a choice. A choice is a text, or a table with that name as its only
  key and nothing as its value.
-/

namespace ArgFill

inductive Format where
  | toml
  | json
  deriving DecidableEq, Repr

/-- A piece of data. An atom is a number, a truth value or a date; `nothing` stands for nothing, in
a format that has such a value. -/
inductive Datum where
  | text (content : Text)
  | atom
  | nothing
  | list (items : List Datum)
  | table (entries : List (Text × Datum))
  deriving Inhabited

namespace Datum

def text? : Datum → Option Text
  | text content => some content
  | _ => none

/-- The character that a datum is, as a text of one character. -/
def char? : Datum → Option Char
  | text [c] => some c
  | _ => none

def items? : Datum → Option (List Datum)
  | list items => some items
  | _ => none

/-- The fields of a record with these names in this order. A list in TOML may go on behind the last
field, and what comes there means nothing. -/
def fields? (format : Format) (names : List String) : Datum → Option (List (Text × Datum))
  | table entries => some entries
  | list items =>
    if format = .toml || items.length ≤ names.length then
      some ((names.map String.toList).zip items)
    else none
  | _ => none

/-- Does a datum hold nothing? TOML has no value for it, so there it is an empty table or list. -/
def isNothing : Format → Datum → Bool
  | .json, nothing => true
  | .toml, list [] => true
  | .toml, table [] => true
  | _, _ => false

/-- The name of a choice. -/
def choice? (format : Format) : Datum → Option Text
  | text name => some name
  | table [(name, content)] => if content.isNothing format then some name else none
  | _ => none

end Datum

end ArgFill
