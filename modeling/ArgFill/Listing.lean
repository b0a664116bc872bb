import ArgFill.Call.Locate
import ArgFill.Text.Line

/-!
# Listing calls

`listCalls` describes each call of a construct by its line and column, its extent and the first
line of its text.
-/

namespace ArgFill

/-- One call as a reader wants to see it: where its name begins, and its first line. -/
structure Entry where
  position : Position
  start : Nat
  stop : Nat
  text : Text
  deriving DecidableEq, Repr

def Entry.ofCall (t : Text) (call : Call) : Except Fault Entry := do
  let whole ← Fault.ofPlace (call.whole? t)
  pure ⟨t.position call.start, call.start, call.stop, whole.firstLine⟩

/-- The entries of all calls, from left to right. -/
def listCalls (target : Target) (t : Text) : Except Fault (List Entry) := do
  (← target.locate t).mapM (Entry.ofCall t)

end ArgFill
