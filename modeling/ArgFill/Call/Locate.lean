import ArgFill.Brackets
import ArgFill.Call
import ArgFill.Fault
import ArgFill.Text.Occurrence

/-!
# Locating calls

A call of a construct begins where its name stands, not as the tail of a longer name, and, behind
white space, the opening bracket follows.

* `Target.callAt?` : the call at an occurrence of the name, or the fault that it does not end;
* `Target.calls` : the calls of a text from left to right, up to and including the first fault;
* `Target.locate` : all calls of a text, or that fault;
* `Target.remeasure` : the same call after its arguments changed: where it ends now.
-/

namespace ArgFill

/-- What to look for: a construct by its name and the brackets around its arguments. -/
structure Target where
  construct : Text
  brackets : Brackets
  deriving DecidableEq, Repr

namespace Target

/-- The call whose name stands at an occurrence. An occurrence that no opening bracket follows, or
that is the tail of a longer name, is none. -/
def callAt? (target : Target) (o : Occurrence) : Option (Except Fault Call) :=
  match o.after.dropWhile isBlankChar with
  | [] => none
  | c :: rest =>
    if endsWord o.before && c == target.brackets.opening then
      let blanks : Text := o.after.takeWhile isBlankChar
      let opened := o.offset + target.construct.size + blanks.size
      let argsStart := opened + c.utf8Size
      match target.brackets.closing? argsStart rest with
      | some argsEnd => some (.ok ⟨o.offset, argsStart, argsEnd⟩)
      | none => some (.error (.unclosed target.construct opened))
    else none

/-- A list up to and including its first fault. -/
def throughFault {α : Type} : List (Except Fault α) → List (Except Fault α)
  | [] => []
  | .ok a :: rest => .ok a :: throughFault rest
  | .error f :: _ => [.error f]

/-- The calls of a text from left to right; a call that does not end is the last of the list. -/
def calls (target : Target) (t : Text) : List (Except Fault Call) :=
  throughFault ((t.occurrences target.construct).filterMap target.callAt?)

def locate (target : Target) (t : Text) : Except Fault (List Call) := (target.calls t).mapM id

/-- A call with its end measured anew: the bracket that closes it now. The measure starts one
opening bracket behind the byte before the arguments. -/
def remeasure (target : Target) (t : Text) (call : Call) : Except Fault Call := do
  let body := call.openOffset + target.brackets.opening.utf8Size
  let (_, rest) ← Fault.ofPlace (t.cut? body)
  match target.brackets.closing? body rest with
  | some argsEnd => pure { call with argsEnd }
  | none => throw (.unclosed target.construct call.openOffset)

end Target

/-- The first items of a list. Was the end of the list seen, and is there an item behind them? -/
structure Pulled (α : Type) where
  items : List α
  ended : Bool
  more : Bool

/-- Takes items until the list ends or `limit` of them are taken. Taking exactly all of them does
not show that the list ends. -/
def Pulled.take {α : Type} (limit : Option Nat) (items : List α) : Pulled α :=
  match limit with
  | none => ⟨items, true, false⟩
  | some n => ⟨items.take n, decide (items.length < n), decide (n < items.length)⟩

end ArgFill
