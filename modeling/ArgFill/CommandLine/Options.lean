import ArgFill.Text.Basic

/-!
# Options on a command line

An argument that begins with `-` and is more than that sets options; every other one is an operand.
A long option is `--name`, or `--name=value`, or `--name` with its value in the next argument. Short
options are letters behind one `-`; the first of them that takes a value takes the rest of the
argument, with or without a `=` before it, or the next argument if there is no rest. A value in an
argument of its own is an operand by its form. Behind `--` every argument is an operand.

`readArguments` applies these rules to the arguments of one command.
-/

namespace ArgFill.CommandLine

structure OptionSpec (ι : Type) where
  id : ι
  longNames : List String
  shortName : Option Char
  takesValue : Bool

/-- An option that was set, with its value if it takes one. -/
structure Setting (ι : Type) where
  id : ι
  value : Option Text

def setsOptions : Text → Bool
  | '-' :: _ :: _ => true
  | _ => false

section
variable {ι : Type} (specs : List (OptionSpec ι))

/-- The settings of a run of short options, and the option that still needs a value. -/
def readShort : Text → Option (List (Setting ι) × Option ι)
  | [] => some ([], none)
  | c :: rest => do
    let spec ← specs.find? fun spec => spec.shortName = some c
    if !spec.takesValue then
      let (settings, waiting) ← readShort rest
      pure (⟨spec.id, none⟩ :: settings, waiting)
    else
      match rest with
      | [] => pure ([], some spec.id)
      | '=' :: value => pure ([⟨spec.id, some value⟩], none)
      | value => pure ([⟨spec.id, some value⟩], none)

def readLong (arg : Text) : Option (List (Setting ι) × Option ι) := do
  let name := arg.takeWhile (· ≠ '=')
  let value := (arg.dropWhile (· ≠ '=')).tail?
  let spec ← specs.find? fun spec => spec.longNames.any fun long => long.toList == name
  match spec.takesValue, value with
  | false, none => some ([⟨spec.id, none⟩], none)
  | false, some _ => none
  | true, none => some ([], some spec.id)
  | true, some value => some ([⟨spec.id, some value⟩], none)

def readOption : Text → Option (List (Setting ι) × Option ι)
  | '-' :: '-' :: name => readLong specs name
  | '-' :: letters => readShort specs letters
  | _ => none

/-- The settings and the operands of a command's arguments; `waiting` is the option whose value
comes next. -/
def readArgumentsFrom : Option ι → List Text → Option (List (Setting ι) × List Text)
  | none, [] => some ([], [])
  | some _, [] => none
  | some id, arg :: args =>
    if setsOptions arg then none
    else do
      let (settings, operands) ← readArgumentsFrom none args
      pure (⟨id, some arg⟩ :: settings, operands)
  | none, arg :: args =>
    if arg = ['-', '-'] then some ([], args)
    else if setsOptions arg then do
      let (here, waiting) ← readOption specs arg
      let (settings, operands) ← readArgumentsFrom waiting args
      pure (here ++ settings, operands)
    else do
      let (settings, operands) ← readArgumentsFrom none args
      pure (settings, arg :: operands)

def readArguments (args : List Text) : Option (List (Setting ι) × List Text) :=
  readArgumentsFrom specs none args

end

def isSet {ι : Type} [DecidableEq ι] (settings : List (Setting ι)) (id : ι) : Bool :=
  settings.any (·.id = id)

def valueOf? {ι : Type} [DecidableEq ι] (settings : List (Setting ι)) (id : ι) : Option Text :=
  (settings.find? (·.id = id)).bind Setting.value

end ArgFill.CommandLine
