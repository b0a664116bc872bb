import ArgFill.Folder
import ArgFill.Json
import ArgFill.RuleBook.Reader

/-!
# Running over files

* `loadBook` : the rule book in a file;
* `processFile` : fills one file by a rule book. What becomes of the new text depends on the `Mode`:
  it is written back if it differs, only compared, or handed out;
* `outcomesJson` : the outcomes of several files as JSON.
-/

namespace ArgFill

/-- What to do with a filled text: write it back where it differs, only tell whether it differs, or
hand it out. -/
inductive Mode where
  | write
  | check
  | print
  deriving DecidableEq, Repr

inductive FileFault where
  | unreadableBook (name : Text) (why : ReadFault)
  | badBook (name : Text) (why : BookFault)
  | unreadable (name : Text) (why : ReadFault)
  | failed (name : Text) (why : Fault)
  deriving DecidableEq, Repr

/-- The wording of a fault: what was being done, then its cause, down to the first one. -/
def FileFault.message : FileFault → String
  | unreadableBook name why => s!"reading rule file {String.ofList name}: {why.message}"
  | badBook name why =>
    let cause := match why with
      | .invalid _ cause => s!": {cause.message}"
      | _ => ""
    s!"loading rules from {String.ofList name}: {why.message}{cause}"
  | unreadable name why => s!"reading {String.ofList name}: {why.message}"
  | failed name why => s!"rewriting {String.ofList name}: {why.message}"

def loadBook (folder : Folder) (name : Text) : Except FileFault RuleBook :=
  match folder.read name with
  | .error why => throw (.unreadableBook name why)
  | .ok t =>
    match RuleBook.ofToml t with
    | .error why => throw (.badBook name why)
    | .ok book => pure book

/-- What became of one file: whether its filled text is another one, and this text where it is
handed out. -/
structure Outcome where
  name : Text
  changed : Bool
  report : Report
  output : Option Text
  deriving DecidableEq, Repr

def processFile (book : RuleBook) (mode : Mode) (name : Text) (folder : Folder) :
    Except FileFault (Outcome × Folder) :=
  match folder.read name with
  | .error why => throw (.unreadable name why)
  | .ok source =>
    match book.apply Filler.defaultBudget source with
    | .error why => throw (.failed name why)
    | .ok (filled, report) =>
      let changed := filled != source
      let output := if mode = .print then some filled else none
      let folder := if mode = .write && changed then folder.write name filled else folder
      pure (⟨name, changed, report, output⟩, folder)

structure Step where
  name : Text
  result : Except FileFault Outcome
  folder : Folder

/-- Processes files one after the other, each in a mode of its own; a file at fault changes
nothing. -/
def processSteps (book : RuleBook) : List (Text × Mode) → Folder → List Step × Folder
  | [], folder => ([], folder)
  | (name, mode) :: rest, folder =>
    let (result, folder) : Except FileFault Outcome × Folder :=
      match processFile book mode name folder with
      | .ok (outcome, folder) => (.ok outcome, folder)
      | .error why => (.error why, folder)
    let (steps, last) := processSteps book rest folder
    (⟨name, result, folder⟩ :: steps, last)

/-! ## Outcomes as JSON -/

def Insertion.json (i : Insertion) : Json :=
  .object [("construct_start", .number i.callStart), ("offset", .number i.offset),
    ("required_key", .text i.key)]

def Skip.json (s : Skip) : Json :=
  .object [("construct_start", .number s.callStart), ("required_key", .text s.key),
    ("anchor_key", .text s.anchor)]

def Report.json (r : Report) : Json :=
  .object [("construct", .text r.construct), ("invocations", .number r.callCount),
    ("insertions", .list (r.insertions.map Insertion.json)),
    ("skipped", .list (r.skips.map Skip.json))]

/-- An outcome as JSON; a text that was handed out is not part of it. -/
def Outcome.json (o : Outcome) : Json :=
  .object [("path", .text o.name), ("changed", .truth o.changed), ("report", o.report.json)]

def outcomesJson (outcomes : List Outcome) : Text := (Json.list (outcomes.map Outcome.json)).pretty

end ArgFill
