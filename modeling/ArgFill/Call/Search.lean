import ArgFill.Call.Locate

/-!
# Calls one at a time

A search finds the calls of a text one by one, each when it is asked for. It remembers how far it
has read. `Search.next` reads on up to the next call; after a call that does not end, and at the end
of the text, there is nothing left to read.
-/

namespace ArgFill

/-- A search on its way: what it has still to read, and what it knows about the text before. The
first `skip` characters belong to the last name found. -/
structure Search where
  target : Target
  skip : Nat
  before : Option Char
  offset : Nat
  rest : Text
  deriving DecidableEq, Repr

/-- A search over a whole text. There is nothing to look for without a name. -/
def Target.search (target : Target) (t : Text) : Search :=
  ⟨target, 0, none, 0, if target.construct.isEmpty then [] else t⟩

namespace Search

def ended (target : Target) : Search := ⟨target, 0, none, 0, []⟩

/-- Reads on up to the next call or the first list that does not end. -/
def nextFrom (target : Target) : Nat → Option Char → Nat → Text →
    Option (Except Fault Call) × Search
  | _, _, _, [] => (none, ended target)
  | skip + 1, _, offset, c :: t => nextFrom target skip (some c) (offset + c.utf8Size) t
  | 0, before, offset, c :: t =>
    let next := offset + c.utf8Size
    if Text.startsWith (c :: t) target.construct then
      let skip := target.construct.length - 1
      match target.callAt? ⟨offset, before, (c :: t).drop target.construct.length⟩ with
      | none => nextFrom target skip (some c) next t
      | some (.ok call) => (some (.ok call), ⟨target, skip, some c, next, t⟩)
      | some (.error fault) => (some (.error fault), ended target)
    else nextFrom target 0 (some c) next t

def next (s : Search) : Option (Except Fault Call) × Search :=
  nextFrom s.target s.skip s.before s.offset s.rest

/-- The answer to the request number `k`, counted from zero. -/
def answer (s : Search) : Nat → Option (Except Fault Call)
  | 0 => s.next.1
  | k + 1 => s.next.2.answer k

end Search

end ArgFill
