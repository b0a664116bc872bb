import ArgFill.Text.Basic

/-!
# Reports

What a run did to a text: the number of calls found, the arguments added and the rules left out,
each list in the order of events. `Report.merge` joins the reports of runs on one text; the empty
report is neutral for it.
-/

namespace ArgFill

/-- One argument that was added to the call whose name begins at `callStart`. The offset is that in
the text as it was at that moment. -/
structure Insertion where
  callStart : Nat
  offset : Nat
  key : Text
  deriving DecidableEq, Repr

/-- One rule left out for a call, because its anchor is missing there. -/
structure Skip where
  callStart : Nat
  key : Text
  anchor : Text
  deriving DecidableEq, Repr

/-- What a run did. Several constructs are joined by commas. -/
structure Report where
  construct : Text
  callCount : Nat
  insertions : List Insertion
  skips : List Skip
  deriving DecidableEq, Repr

namespace Report

def empty : Report := ⟨[], 0, [], []⟩

def changed (r : Report) : Bool := !r.insertions.isEmpty

/-- The number of calls that something was added to, as told apart by where they begin. -/
def callsChanged (r : Report) : Nat := (r.insertions.map Insertion.callStart).eraseDups.length

/-- The label of two runs together: one construct twice is named once. -/
def joinConstructs (first second : Text) : Text :=
  if first.isEmpty then second
  else if second.isEmpty || second == first then first
  else first ++ ',' :: second

def merge (first second : Report) : Report where
  construct := joinConstructs first.construct second.construct
  callCount := first.callCount + second.callCount
  insertions := first.insertions ++ second.insertions
  skips := first.skips ++ second.skips

/-- The reports that come about when reports are merged into one, one after the other. -/
def mergeStates (first : Report) : List Report → List Report
  | [] => []
  | next :: rest => first.merge next :: mergeStates (first.merge next) rest

end Report

end ArgFill
