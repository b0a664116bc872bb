import ArgFill.Text.Basic

/-!
# Quoted text

Inside an argument list, `'` and `"` begin a quoted text that the same character ends; in it a
backslash takes its meaning from the next character. `Quoting.next` says how one character changes
the state, and `Quoting.opens` and `Quoting.closes` name the brackets that count outside quotes.
-/

namespace ArgFill

/-- Where a character stands with regard to quotes; `escaped` is right behind a backslash. -/
inductive Quoting where
  | outside
  | inside (quote : Char)
  | escaped (quote : Char)
  deriving DecidableEq, Repr

namespace Quoting

def isQuote (c : Char) : Bool := c == '\'' || c == '"'

def next : Quoting → Char → Quoting
  | outside, c => if isQuote c then inside c else outside
  | inside quote, c =>
    if c = '\\' then escaped quote else if c = quote then outside else inside quote
  | escaped quote, _ => inside quote

def opens (c : Char) : Bool := c == '(' || c == '[' || c == '{'

def closes (c : Char) : Bool := c == ')' || c == ']' || c == '}'

end Quoting

end ArgFill
