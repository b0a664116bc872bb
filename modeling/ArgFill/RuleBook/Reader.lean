import ArgFill.RuleBook
import ArgFill.Toml.Document

/-!
# Reading rule books

A rule book is a TOML document: either one profile, or a list of them under `profiles`.

* `Rule.ofDatum?` : a rule has three texts; other keys in it mean nothing;
* `Profile.ofDatum?` : a profile has a construct, and may have `indent`, `open`, `close` and
  `rules`; another key is a mistake;
* `RuleBook.ofToml` : the rule book that a text holds.
-/

namespace ArgFill

def required {α : Type} (entries : List (Text × Datum)) (name : String)
    (read : Datum → Option α) : Option α := do
  read (← entries.lookup name.toList)

/-- A field that has a value for the case that it is not there. -/
def optional {α : Type} (entries : List (Text × Datum)) (name : String)
    (read : Datum → Option α) (default : α) : Option α :=
  match entries.lookup name.toList with
  | some datum => read datum
  | none => some default

def Rule.fieldNames : List String := [Field.key, .anchor, .literal].map Field.label

def Rule.ofDatum? (format : Format) (datum : Datum) : Option Rule := do
  let entries ← datum.fields? format Rule.fieldNames
  let field (f : Field) := required entries f.label Datum.text?
  pure ⟨← field .key, ← field .anchor, ← field .literal⟩

def Profile.fieldNames : List String := ["construct", "indent", "open", "close", "rules"]

/-- A profile from its fields, of which it has no others. -/
def Profile.ofDatum? (format : Format) (datum : Datum) : Option Profile := do
  let entries ← datum.fields? format Profile.fieldNames
  if entries.all fun e => Profile.fieldNames.any fun name => name.toList == e.1 then
    let construct ← required entries "construct" Datum.text?
    let indent ← optional entries "indent" (fun d => (d.choice? format).bind Indent.ofLabel?) .none
    let opening ← optional entries "open" Datum.char? Brackets.round.opening
    let closing ← optional entries "close" Datum.char? Brackets.round.closing
    let rules ← optional entries "rules" (fun d => do (← d.items?).mapM (Rule.ofDatum? format)) []
    pure ⟨construct, indent, ⟨opening, closing⟩, rules⟩
  else none

namespace RuleBook

/-- The profiles that a document declares: those of the list `profiles`, which is then all that the
document holds, or the document itself. -/
def profilesOf (entries : List (Text × Datum)) : Except BookFault (List Profile) :=
  match entries.lookup "profiles".toList with
  | none =>
    match Profile.ofDatum? .toml (.table entries) with
    | none => throw .malformed
    | some profile => pure [profile]
  | some datum =>
    if entries.length = 1 then
      match datum.items?.bind fun items => items.mapM (Profile.ofDatum? .toml) with
      | none => throw .malformed
      | some [] => throw .noProfiles
      | some profiles => pure profiles
    else throw .malformed

/-- The rule book of a list of JSON data, each of which must be a profile. -/
def ofData (data : List Datum) : Except BookFault (List Profile × RuleBook) := do
  match data.mapM (Profile.ofDatum? .json) with
  | none => throw .malformed
  | some profiles => pure (profiles, ← ofProfiles profiles)

def ofToml (t : Text) : Except BookFault RuleBook := do
  match Toml.document? t with
  | none => throw .malformed
  | some entries => ofProfiles (← profilesOf entries)

end RuleBook

end ArgFill
