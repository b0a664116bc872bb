import ArgFill.Text.Basic

/-!
# What can go wrong

* `Field` : the three fields of a rule, by the labels that rule books and messages use;
* `Refusal` : why a construct name or a rule is not accepted;
* `Fault` : why locating or filling stops. `Fault.message` is its wording; only a missing anchor is
  recoverable, which means that filling may leave that one rule out and go on.
-/

namespace ArgFill

inductive Field where
  | key
  | anchor
  | literal
  deriving DecidableEq, Repr

def Field.label : Field → String
  | .key => "required_key"
  | .anchor => "anchor_key"
  | .literal => "literal"

/-- Why a name or a rule is refused. A key is lost if it cannot be found in the arguments it was
just added to. -/
inductive Refusal where
  | emptyConstruct
  | malformedConstruct (name : Text)
  | blankField (field : Field)
  | malformedKey (field : Field) (value : Text)
  | keyLost (key : Text)
  deriving DecidableEq, Repr

def Refusal.message : Refusal → String
  | .emptyConstruct => "construct name must not be empty"
  | .malformedConstruct name => s!"construct name '{String.ofList name}' is not identifier-like"
  | .blankField field => s!"rule field '{field.label}' must not be empty"
  | .malformedKey field value =>
    s!"rule field '{field.label}' ('{String.ofList value}') is not identifier-like"
  | .keyLost key =>
    s!"inserted key '{String.ofList key}' is not found again in the argument list"

/-- Why locating or filling stops. The list that opens at `offset` is unclosed; of an anchor that is
missing there may be values, but none that a comma ends; an offset is bad if it is no character
boundary; unsettled is a call for which the budget of turns was spent. -/
inductive Fault where
  | unclosed (construct : Text) (offset : Nat)
  | anchorMissing (anchor key : Text)
  | refused (why : Refusal)
  | badOffset
  | unsettled
  deriving DecidableEq, Repr

namespace Fault

def message : Fault → String
  | unclosed construct offset =>
    s!"unbalanced delimiters in '{String.ofList construct}' invocation opened at byte {offset}"
  | anchorMissing anchor key =>
    s!"anchor '{String.ofList anchor}' for '{String.ofList key}' not found"
  | refused why => s!"invalid input: {why.message}"
  | badOffset => "offset is not a character boundary"
  | unsettled => "filling did not settle"

/-- May filling leave the rule out and go on? -/
def isRecoverable : Fault → Bool
  | anchorMissing .. => true
  | _ => false

/-- Reads a place in a text, which fails where there is none. -/
def ofPlace {α : Type} : Option α → Except Fault α
  | some a => .ok a
  | none => .error badOffset

theorem ofPlace_eq_ok_iff {α : Type} {o : Option α} {a : α} : ofPlace o = .ok a ↔ o = some a := by
  cases o with
  | none => exact ⟨nofun, nofun⟩
  | some b =>
    rw [ofPlace]
    exact ⟨fun h => by rw [Except.ok.inj h], fun h => by rw [Option.some.inj h]⟩

end Fault

end ArgFill
