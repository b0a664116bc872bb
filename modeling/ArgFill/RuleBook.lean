import ArgFill.Filler

/-!
# Rule books

A profile is what a rule book says about one construct. A rule book is a list of profiles that have
been checked and turned into fillers, which run one after the other over the same text.

* `Profile.filler` : the filler of a profile. Its brackets must differ, its construct and its rules
  must be acceptable, in this order;
* `RuleBook.ofProfiles` : all fillers, or the fault of the first profile that has one;
* `RuleBook.apply` : all fillers in order, with their reports merged.
-/

namespace ArgFill

/-- Why there is no rule book. A malformed file is no TOML, or not of the shape of a rule book. -/
inductive BookFault where
  | malformed
  | invalid (construct : Text) (why : Fault)
  | sameBrackets (construct : Text)
  | noProfiles
  deriving DecidableEq, Repr

def BookFault.message : BookFault → String
  | malformed => "malformed rule file"
  | invalid construct why =>
    s!"invalid rule set for '{String.ofList construct}': {why.message}"
  | sameBrackets construct => s!"delimiters for '{String.ofList construct}' must differ"
  | noProfiles => "rule file declares no profiles"

/-- What a rule book says about one construct. -/
structure Profile where
  construct : Text
  indent : Indent
  brackets : Brackets
  rules : List Rule
  deriving DecidableEq, Repr

def Profile.filler (p : Profile) : Except BookFault Filler :=
  if p.brackets.opening = p.brackets.closing then throw (.sameBrackets p.construct)
  else
    match Filler.checked ⟨⟨p.construct, p.brackets⟩, p.rules, p.indent⟩ with
    | .ok filler => pure filler
    | .error why => throw (.invalid p.construct why)

/-- Fillers in the order in which they run. -/
structure RuleBook where
  fillers : List Filler
  deriving DecidableEq, Repr

namespace RuleBook

def ofProfiles (profiles : List Profile) : Except BookFault RuleBook := do
  let fillers ← profiles.mapM Profile.filler
  pure ⟨fillers⟩

/-- Fills a text by one filler after the other. -/
def apply (book : RuleBook) (budget : Nat) (t : Text) : Except Fault (Text × Report) :=
  book.fillers.foldlM (fun (t, report) filler => do
    let (next, pass) ← filler.apply budget t
    pure (next, report.merge pass)) (t, .empty)

end RuleBook

end ArgFill
