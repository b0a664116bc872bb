import ArgFill.Fault
import ArgFill.Text.CharClass

/-!
# Rules

A rule names an argument that every call of a construct must have (`key`), the argument it is
added behind (`anchor`), and the text of its value (`literal`).

* `Rule.refusal?` : what is wrong with a rule: first a blank field, then a key that is no name;
* `constructRefusal?` : what is wrong with the name of a construct;
* `Rule.insertion` : the text that the rule adds.
-/

namespace ArgFill

/-- An argument that calls must have. The literal is added as it stands. -/
structure Rule where
  key : Text
  anchor : Text
  literal : Text
  deriving DecidableEq, Repr, Inhabited

/-- How an added argument is indented: not at all, or like the line on which it is added. -/
inductive Indent where
  | none
  | matchAnchor
  deriving DecidableEq, Repr, Inhabited

def Indent.label : Indent → String
  | .none => "none"
  | .matchAnchor => "match-anchor"

def Indent.ofLabel? (label : Text) : Option Indent :=
  [Indent.none, .matchAnchor].find? fun indent => indent.label.toList == label

namespace Rule

def get (rule : Rule) : Field → Text
  | .key => rule.key
  | .anchor => rule.anchor
  | .literal => rule.literal

/-- The first thing that is wrong with a rule. No field may be blank, and both keys must be names,
so that a key can be found once it is added. -/
def refusal? (rule : Rule) : Option Refusal :=
  match [Field.key, .anchor, .literal].find? fun field => (rule.get field).isBlank with
  | some field => some (.blankField field)
  | none =>
    ([Field.key, .anchor].find? fun field => !(rule.get field).isName).map fun field =>
      .malformedKey field (rule.get field)

def checked (rule : Rule) : Except Fault Rule :=
  match rule.refusal? with
  | some why => .error (.refused why)
  | none => .ok rule

/-- The text that a rule adds: a new line with the argument and a comma. -/
def insertion (rule : Rule) (indent : Text) : Text :=
  '\n' :: indent ++ rule.key ++ [':', ' '] ++ rule.literal ++ [',']

end Rule

/-- What is wrong with the name of a construct: it must be made of the characters of keys and of
dots. -/
def constructRefusal? (name : Text) : Option Refusal :=
  if name.isEmpty then some .emptyConstruct
  else if name.isQualifiedName then none
  else some (.malformedConstruct name)

end ArgFill
