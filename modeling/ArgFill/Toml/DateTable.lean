import ArgFill.Datum
import ArgFill.Toml.Scalar

/-!
# Tables that stand for dates

A table whose first key is `dateKey` stands for a date: that key holds the text of the date, and the
rest of the table means nothing.

* `isDateText` : does a text read as a date, to its end?
* `Datum.holdsDates` : does every table that stands for a date hold the text of one?
-/

namespace ArgFill

namespace Toml

/-- The key that makes a table stand for a date. -/
def dateKey : Text := "$__toml_private_datetime".toList

/-- Is a text a date, a date with a time, or a time, and nothing besides? -/
def isDateText (t : Text) : Bool :=
  match dateTime t with
  | some (_, []) => true
  | _ => false

end Toml

def Datum.isDateText : Datum → Bool
  | text content => Toml.isDateText content
  | _ => false

mutual

/-- Does every table in a datum that stands for a date hold the text of one? -/
def Datum.holdsDates : Datum → Bool
  | .list items => itemsHoldDates items
  | .table [] => true
  | .table ((key, first) :: others) =>
    if key = Toml.dateKey then first.isDateText else first.holdsDates && entriesHoldDates others
  | _ => true

def itemsHoldDates : List Datum → Bool
  | [] => true
  | item :: others => item.holdsDates && itemsHoldDates others

def entriesHoldDates : List (Text × Datum) → Bool
  | [] => true
  | (_, datum) :: others => datum.holdsDates && entriesHoldDates others

end

end ArgFill
