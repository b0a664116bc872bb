import ArgFill.Filler

/-!
# Surveys

`Survey.ofCall` tells, without changing anything, what keys and rules find at a call: which keys are
there, which rules lack their argument, and where each rule would add it.
-/

namespace ArgFill

/-- Where a rule would add its argument, with the indentation of that line. -/
structure Place where
  offset : Nat
  indent : Text
  deriving DecidableEq, Repr

def Place.ofRule (t : Text) (call : Call) (rule : Rule) : Except Fault Place := do
  let offset ← slot t call rule
  pure ⟨offset, ← indentAt t offset⟩

/-- What keys and rules find at a call: which keys are there, the rules whose argument is not, and
for each rule its place, where a missing anchor is an answer too. -/
structure Survey where
  call : Call
  present : List Bool
  missing : List Rule
  places : List (Except Fault Place)

/-- Turns a fault that filling survives into an answer. -/
def Survey.settle {α : Type} : Except Fault α → Except Fault (Except Fault α)
  | .ok a => .ok (.ok a)
  | .error fault => if fault.isRecoverable then .ok (.error fault) else .error fault

def Survey.ofCall (t : Text) (keys : List Text) (rules : List Rule) (call : Call) :
    Except Fault Survey := do
  let present ← keys.mapM (isPresent t call)
  let missing ← ArgFill.missing t call rules
  let places ← rules.mapM fun rule => Survey.settle (Place.ofRule t call rule)
  pure ⟨call, present, missing, places⟩

end ArgFill
