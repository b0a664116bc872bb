import ArgFill.Text.Occurrence

/-!
# Presence of a key

`Text.hasKey` tells whether a key stands in an argument list: the key, not as the tail of a longer
name, then any spaces and tabs, then a colon. The test is a plain search. It does not look at
quotes, comments or nesting, so a key of a nested call counts, and so does one in a comment.
-/

namespace ArgFill

def Text.colonFollows (t : Text) : Bool := (t.dropWhile isGap).head? == some ':'

/-- Is this occurrence of a key a whole name that a colon follows? -/
def Occurrence.isKey (o : Occurrence) : Bool := endsWord o.before && o.after.colonFollows

/-- Does `key:` stand anywhere in an argument list? -/
def Text.hasKey (args key : Text) : Bool := (args.occurrences key).any Occurrence.isKey

end ArgFill
