import ArgFill.CommandLine.Options
import ArgFill.Brackets
import ArgFill.FileRun

/-!
# Requests

What a command line asks for. `Request.ofArguments?` refuses a command line with an unknown command
or option, without something that is required, with an option set twice, with `--check` and
`--dry-run` together, with a bracket that is not one character, and with more operands than the
command takes.
-/

namespace ArgFill.CommandLine

inductive Request where
  | version
  | nothing
  | apply (book : Text) (mode : Mode) (json : Bool) (paths : List Text)
  | locate (target : Text) (brackets : Brackets) (path : Text)
  deriving DecidableEq, Repr

def Request.plainPaths : Request → List Text
  | .apply book _ _ paths => ((book :: paths).map Path.plain).eraseDups
  | .locate _ _ path => [Path.plain path]
  | _ => []

inductive OptionId where
  | verbose
  | rules
  | check
  | dryRun
  | json
  | construct
  | opening
  | closing
  deriving DecidableEq, Repr

def verboseOption : OptionSpec OptionId := ⟨.verbose, ["verbose"], some 'v', false⟩

def applyOptions : List (OptionSpec OptionId) :=
  [verboseOption, ⟨.rules, ["rules"], some 'r', true⟩, ⟨.check, ["check"], none, false⟩,
   ⟨.dryRun, ["dry-run", "diff"], none, false⟩, ⟨.json, ["json"], none, false⟩]

def locateOptions : List (OptionSpec OptionId) :=
  [verboseOption, ⟨.construct, ["construct"], some 'c', true⟩, ⟨.opening, ["open"], none, true⟩,
   ⟨.closing, ["close"], none, true⟩]

/-- The arguments of a command in which no option is set twice. -/
def readOnce (specs : List (OptionSpec OptionId)) (args : List Text) :
    Option (List (Setting OptionId) × List Text) := do
  let (settings, operands) ← readArguments specs args
  if (settings.map Setting.id).Nodup then some (settings, operands) else none

/-- A path, which has at least one character. -/
def path? (t : Text) : Option Text := if t.isEmpty then none else some t

/-- A bracket that may be set: one character, or else the usual one. -/
def bracket? (value : Option Text) (usual : Char) : Option Char :=
  match value with
  | none => some usual
  | some [c] => some c
  | some _ => none

def readApply (args : List Text) : Option Request := do
  let (settings, operands) ← readOnce applyOptions args
  let book ← (← valueOf? settings .rules) |> path?
  let paths ← operands.mapM path?
  let checks := isSet settings .check
  let prints := isSet settings .dryRun
  if paths.isEmpty || (checks && prints) then none
  else
    let mode := if checks then Mode.check else if prints then .print else .write
    some (.apply book mode (isSet settings .json) paths)

def readLocate (args : List Text) : Option Request := do
  let (settings, operands) ← readOnce locateOptions args
  let construct ← valueOf? settings .construct
  let opening ← bracket? (valueOf? settings .opening) Brackets.round.opening
  let closing ← bracket? (valueOf? settings .closing) Brackets.round.closing
  match operands with
  | [operand] => (path? operand).map (.locate construct ⟨opening, closing⟩)
  | _ => none

/-- What the letters behind one `-` before a command say: the version is wanted, or from then on
the program is verbose. -/
def readLetters : Bool → Text → Option (Option Bool)
  | verbose, [] => some (some verbose)
  | verbose, c :: rest =>
    if c = 'V' then some none
    else if c = 'v' && !verbose then readLetters true rest
    else none

/-- The request of arguments, the first of which may make the program verbose. -/
def readCommand : Bool → List Text → Option Request
  | verbose, [] => if verbose then some .nothing else none
  | verbose, arg :: args =>
    if arg = "apply".toList then readApply args
    else if arg = "locate".toList then readLocate args
    else if arg = "--version".toList then some .version
    else if arg = "--verbose".toList then if verbose then none else readCommand true args
    else
      match arg with
      | ['-', '-'] => if verbose && args.isEmpty then some .nothing else none
      | '-' :: c :: letters =>
        match readLetters verbose (c :: letters) with
        | none => none
        | some none => some .version
        | some (some verbose) => readCommand verbose args
      | _ => none

def Request.ofArguments? (args : List Text) : Option Request := readCommand false args

end ArgFill.CommandLine
