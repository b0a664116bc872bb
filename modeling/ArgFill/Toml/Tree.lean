import ArgFill.Datum

/-!
# Building the tables of a document

A TOML document defines its tables piece by piece: by headers, by dotted keys, and on the way to
either. What may still be added to a table depends on how it came about, so while a document is
read its tables carry an `Origin`; `Node.datum` drops it.

* `edit` : changes the table at the end of a path, and makes tables on the way where there are none;
* `define` : a key with a value. No key is defined twice, and a dotted key goes through tables that
  dotted keys or the way to a header made, and ends in one that dotted keys made;
* `openTable`, `openElement` : the table of a header, and a new element of a list of tables.
-/

namespace ArgFill.Toml

/-- How a table came about: by a header of its own, on the way to a header, or by a dotted key. -/
inductive Origin where
  | header
  | implied
  | dotted
  deriving DecidableEq, Repr

/-- What a key stands for while a document is read. Nothing can be added to a value. Of the tables
that headers made a list, the last one is the first. -/
inductive Node where
  | value (datum : Datum)
  | table (origin : Origin) (entries : List (Text × Node))
  | tables (elements : List (List (Text × Node)))

abbrev Entries := List (Text × Node)

namespace Entries

/-- Gives a key that is there another node. -/
def put (key : Text) (node : Node) (es : Entries) : Entries :=
  es.map fun e => if e.1 = key then (key, node) else e

def remove (key : Text) (es : Entries) : Entries := es.filter fun e => e.1 != key

def push (key : Text) (node : Node) (es : Entries) : Entries := es ++ [(key, node)]

/-- Changes the table at the end of a path. Tables that are missing on the way come about by dotted
keys (`viaDots`), which do not enter a table that has a header, or as a way to a header. `change`
is told whether the table came about by dotted keys, and so is the search where it begins. -/
def edit (viaDots : Bool) (change : Bool → Entries → Option Entries) :
    Bool → List Text → Entries → Option Entries
  | dotted, [], es => change dotted es
  | _, key :: path, es =>
    match es.lookup key with
    | none => do
      let inner ← edit viaDots change viaDots path []
      pure (es.push key (.table (if viaDots then .dotted else .implied) inner))
    | some (.value _) => none
    | some (.table origin inner) =>
      if viaDots && origin = .header then none
      else do
        let inner ← edit viaDots change (origin = .dotted) path inner
        pure (es.put key (.table origin inner))
    | some (.tables []) => none
    | some (.tables (last :: others)) => do
      let last ← edit viaDots change false path last
      pure (es.put key (.tables (last :: others)))

def define (path : List Text) (datum : Datum) (es : Entries) : Option Entries := do
  let key ← path.getLast?
  let way := path.dropLast
  edit true (fun dotted es =>
    if dotted = way.isEmpty || (es.lookup key).isSome then none
    else some (es.push key (.value datum))) false way es

/-- Opens the table of a header. It may have come about on the way to another header before; its key
then moves to the end. -/
def openTable (path : List Text) (es : Entries) : Option Entries := do
  let key ← path.getLast?
  edit false (fun _ es =>
    match es.lookup key with
    | none => some (es.push key (.table .header []))
    | some (.table .implied inner) => some ((es.remove key).push key (.table .header inner))
    | some _ => none) false path.dropLast es

def openElement (path : List Text) (es : Entries) : Option Entries := do
  let key ← path.getLast?
  edit false (fun _ es =>
    match es.lookup key with
    | none => some (es.push key (.tables [[]]))
    | some (.tables elements) => some (es.put key (.tables ([] :: elements)))
    | some _ => none) false path.dropLast es

def defineIn (header path : List Text) (datum : Datum) (es : Entries) : Option Entries :=
  edit false (fun _ es => define path datum es) false header es

end Entries

mutual

def Node.datum : Node → Datum
  | .value datum => datum
  | .table _ entries => .table (entriesData entries)
  | .tables elements => .list (elementsData elements).reverse

def entriesData : List (Text × Node) → List (Text × Datum)
  | [] => []
  | (key, node) :: es => (key, node.datum) :: entriesData es

def elementsData : List (List (Text × Node)) → List Datum
  | [] => []
  | es :: others => .table (entriesData es) :: elementsData others

end

end ArgFill.Toml
