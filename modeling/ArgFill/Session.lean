import ArgFill.Survey

/-!
# Sessions

A session holds a text, the settings for locating and filling it, and the call that is selected.
`Session.step` carries out one command: it gives the reply and the session after it. A command that
fails leaves the session as it was, except that selecting a call which is not there clears the
selection. Edits do not move the selection; `Command.remeasure` measures it anew.
-/

namespace ArgFill

/-- How to locate and fill. -/
structure Settings where
  construct : Text
  rules : List Rule
  brackets : Brackets
  indent : Indent

namespace Settings

def target (s : Settings) : Target := ⟨s.construct, s.brackets⟩

def filler (s : Settings) : Except Fault Filler := Filler.checked ⟨s.target, s.rules, s.indent⟩

end Settings

/-- New values for some of the settings. -/
structure Change where
  construct : Option Text
  rules : Option (List Rule)
  opening : Option Char
  closing : Option Char
  indent : Option Indent

def Settings.change (s : Settings) (c : Change) : Settings where
  construct := c.construct.getD s.construct
  rules := c.rules.getD s.rules
  brackets := ⟨c.opening.getD s.brackets.opening, c.closing.getD s.brackets.closing⟩
  indent := c.indent.getD s.indent

/-- What a session is asked to do. Calls and rules go by their places in their lists. -/
inductive Command where
  | change (values : Change)
  | locate
  | select (place : Nat)
  | remeasure
  | arguments
  | insert (offset : Nat) (text : Text)
  | erase (first last : Nat)
  | present (key : Text)
  | missing
  | place (rule : Nat)
  | position (offset : Nat)
  | fill

/-- What a session answers. -/
inductive Reply where
  | done
  | calls (calls : List Call)
  | selected (call : Call) (args : Text)
  | remeasured (call : Call) (args : Text)
  | arguments (args : Text)
  | text (text : Text)
  | present (answer : Bool)
  | missing (keys : List Text)
  | place (place : Place)
  | position (position : Position)
  | filled (text : Text) (report : Report)
  | noCall
  | noRule
  | fault (fault : Fault)

/-- A text under work. -/
structure Session where
  text : Text
  settings : Settings
  selected : Option Call

namespace Session

def new (text : Text) (settings : Settings) : Session := ⟨text, settings, none⟩

def answer (s : Session) (attempt : Except Fault Reply) : Reply × Session :=
  match attempt with
  | .ok reply => (reply, s)
  | .error fault => (.fault fault, s)

/-- The reply and the session of an attempt to go on to another session. -/
def advance (s : Session) (attempt : Except Fault (Reply × Session)) : Reply × Session :=
  match attempt with
  | .ok result => result
  | .error fault => (.fault fault, s)

def withCall (s : Session) (act : Call → Reply × Session) : Reply × Session :=
  match s.selected with
  | some call => act call
  | none => (.noCall, s)

def step (s : Session) : Command → Reply × Session
  | .change values => (.done, { s with settings := s.settings.change values })
  | .locate => s.answer (.calls <$> s.settings.target.locate s.text)
  | .select place => s.advance do
    let calls ← s.settings.target.locate s.text
    match calls[place]? with
    | none => pure (.noCall, { s with selected := none })
    | some call => pure (.selected call (← argsOf s.text call), { s with selected := some call })
  | .remeasure => s.withCall fun call => s.advance do
    let call ← s.settings.target.remeasure s.text call
    pure (.remeasured call (← argsOf s.text call), { s with selected := some call })
  | .arguments => s.withCall fun call => s.answer (.arguments <$> argsOf s.text call)
  | .insert offset added => s.advance do
    let text ← Fault.ofPlace (s.text.insert? offset added)
    pure (.text text, { s with text })
  | .erase first last => s.advance do
    let text ← Fault.ofPlace (s.text.erase? first last)
    pure (.text text, { s with text })
  | .present key => s.withCall fun call => s.answer (.present <$> isPresent s.text call key)
  | .missing => s.withCall fun call => s.answer do
    let rules ← ArgFill.missing s.text call s.settings.rules
    pure (.missing (rules.map Rule.key))
  | .place rule => s.withCall fun call => s.answer do
    match s.settings.rules[rule]? with
    | none => pure .noRule
    | some rule => .place <$> Place.ofRule s.text call rule
  | .position offset => (.position (s.text.position offset), s)
  | .fill => s.advance do
    let filler ← s.settings.filler
    let (text, report) ← filler.apply Filler.defaultBudget s.text
    pure (.filled text report, { s with text })

/-- Carries out commands one after the other; the replies in order. -/
def run (s : Session) : List Command → List Reply
  | [] => []
  | command :: rest =>
    let (reply, next) := s.step command
    reply :: run next rest

end Session

end ArgFill
