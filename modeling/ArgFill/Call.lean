import ArgFill.Text.Basic

/-!
# Calls

A call of a construct, such as `Product(id: 1)`, as three byte offsets into the text that holds it.
The offsets hold only until the text changes. `Call.contains` says that a call stands inside the
argument list of another, and `Call.nestedPairs` lists where that is so in a list of calls.
-/

namespace ArgFill

/-- Where a call stands: the bytes at which its name, its argument list and its closing bracket
begin. -/
structure Call where
  start : Nat
  argsStart : Nat
  argsEnd : Nat
  deriving DecidableEq, Repr, Inhabited

namespace Call

/-- The byte before the argument list. -/
def openOffset (call : Call) : Nat := call.argsStart - 1

/-- The byte behind the first byte of the closing bracket. -/
def stop (call : Call) : Nat := call.argsEnd + 1

def contains (call inner : Call) : Bool :=
  call.argsStart ≤ inner.start && inner.argsEnd < call.argsEnd

def args? (call : Call) (t : Text) : Option Text := t.between? call.argsStart call.argsEnd

/-- The call from its name to its closing bracket. -/
def whole? (call : Call) (t : Text) : Option Text := t.between? call.start call.stop

/-- The pairs of places in a list of calls where the second call stands inside the first. -/
def nestedPairs (calls : List Call) : List (Nat × Nat) :=
  calls.zipIdx.flatMap fun (outer, i) =>
    (calls.zipIdx.filter fun (inner, _) => outer.contains inner).map fun (_, j) => (i, j)

end Call

end ArgFill
