import ArgFill.Argument.Anchor
import ArgFill.Call.Locate
import ArgFill.Report
import ArgFill.Rule
import ArgFill.Text.Line

/-!
# Filling calls

A filler adds to every call of a construct the arguments that its rules ask for.

The calls are located once and filled from the last to the first, so that the offsets of those
still to come stay true. A call is filled in turns. Each turn measures the call anew and takes the
first rule whose key is missing: its argument is added behind its anchor, or, if the anchor is
missing too, the rule is left out for this call. The call is settled when no rule is left.

* `missing`, `slot`, `indentAt` : what a rule finds at a call;
* `Filler.turn` : one turn;
* `Filler.fillCall` : the turns of one call, at most `budget` of them. A literal may close the
  argument list, so turns can go on without end; then the budget ends with `Fault.unsettled`;
* `Filler.apply` : a whole text, with the report of what was done.
-/

namespace ArgFill

/-! ## A rule at a call -/

/-- The argument list of a call, which must still fit the text. -/
def argsOf (t : Text) (call : Call) : Except Fault Text := Fault.ofPlace (call.args? t)

def isPresent (t : Text) (call : Call) (key : Text) : Except Fault Bool := do
  let args ← argsOf t call
  pure (args.hasKey key)

/-- The rules whose argument a call lacks, in their order. Without rules the text is not read. -/
def missing (t : Text) (call : Call) : List Rule → Except Fault (List Rule)
  | [] => pure []
  | rules => do
    let args ← argsOf t call
    pure (rules.filter fun rule => !args.hasKey rule.key)

/-- The offset at which a rule adds its argument to a call. -/
def slot (t : Text) (call : Call) (rule : Rule) : Except Fault Nat := do
  let args ← argsOf t call
  match args.slot? rule.anchor with
  | some place => pure (call.argsStart + place)
  | none => throw (.anchorMissing rule.anchor rule.key)

def indentAt (t : Text) (offset : Nat) : Except Fault Text := Fault.ofPlace (t.indentAt? offset)

/-! ## Fillers -/

/-- A construct to look for and the rules for its calls. -/
structure Filler where
  target : Target
  rules : List Rule
  indent : Indent
  deriving DecidableEq, Repr

namespace Filler

/-- The first thing that is wrong with a filler: its construct, then its rules in order. -/
def refusal? (filler : Filler) : Option Refusal :=
  (constructRefusal? filler.target.construct).or (filler.rules.findSome? Rule.refusal?)

def checked (filler : Filler) : Except Fault Filler :=
  match filler.refusal? with
  | some why => .error (.refused why)
  | none => .ok filler

/-- A text on its way, with what was done to it. -/
structure Progress where
  text : Text
  insertions : List Insertion
  skips : List Skip
  deriving DecidableEq, Repr

/-- What one turn at a call does. -/
inductive Turn where
  | settled
  | added (progress : Progress)
  | leftOut (rule : Rule) (progress : Progress)
  deriving DecidableEq, Repr

def indentation (filler : Filler) (t : Text) (offset : Nat) : Except Fault Text :=
  match filler.indent with
  | .none => pure []
  | .matchAnchor => indentAt t offset

/-- Adds the argument of a rule to a call at an offset, and makes sure that it is found there. -/
def add (filler : Filler) (call : Call) (rule : Rule) (offset : Nat) (p : Progress) :
    Except Fault Progress := do
  let indent ← filler.indentation p.text offset
  let text ← Fault.ofPlace (p.text.insert? offset (rule.insertion indent))
  let grown ← filler.target.remeasure text call
  if ← isPresent text grown rule.key then
    pure { p with text, insertions := p.insertions ++ [⟨call.start, offset, rule.key⟩] }
  else throw (.refused (.keyLost rule.key))

/-- One turn at a call for which the rules in `out` are left out. -/
def turn (filler : Filler) (call : Call) (out : List Rule) (p : Progress) :
    Except Fault Turn := do
  let now ← filler.target.remeasure p.text call
  match (← missing p.text now filler.rules).find? fun rule => !out.contains rule with
  | none => pure .settled
  | some rule =>
    match slot p.text now rule with
    | .ok offset => .added <$> filler.add call rule offset p
    | .error fault =>
      if fault.isRecoverable then
        pure (.leftOut rule { p with skips := p.skips ++ [⟨call.start, rule.key, rule.anchor⟩] })
      else throw fault

/-- Turns at one call until it is settled, at most `budget` of them. -/
def fillCall (filler : Filler) (call : Call) : Nat → List Rule → Progress → Except Fault Progress
  | 0, _, _ => throw .unsettled
  | budget + 1, out, p => do
    match ← filler.turn call out p with
    | .settled => pure p
    | .added p => fillCall filler call budget out p
    | .leftOut rule p => fillCall filler call budget (rule :: out) p

def fillCalls (filler : Filler) (budget : Nat) (calls : List Call) (p : Progress) :
    Except Fault Progress :=
  calls.foldlM (fun p call => filler.fillCall call budget [] p) p

/-- Fills every call of a text, the last one first. Without rules the calls are only counted. -/
def apply (filler : Filler) (budget : Nat) (t : Text) : Except Fault (Text × Report) := do
  let calls ← filler.target.locate t
  let start : Progress := ⟨t, [], []⟩
  let p ← if filler.rules.isEmpty then pure start else filler.fillCalls budget calls.reverse start
  pure (p.text, ⟨filler.target.construct, calls.length, p.insertions, p.skips⟩)

/-- The number of turns that a call gets unless the caller says otherwise: more than anyone waits
for, so that a call which does not settle goes on. -/
def defaultBudget : Nat := Nat.pow 2 62

end Filler

/-- Runs a change of a text on its own result again and again, `count` times or up to the first
fault. -/
def passes {α : Type} (run : Text → Except Fault (Text × α)) :
    Nat → Text → List (Except Fault (Text × α))
  | 0, _ => []
  | count + 1, t =>
    match run t with
    | .ok (next, a) => .ok (next, a) :: passes run count next
    | .error fault => [.error fault]

end ArgFill
