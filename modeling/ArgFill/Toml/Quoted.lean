import ArgFill.Toml.Reader

/-!
# Quoted texts in TOML

A text stands between double quotes, where a backslash begins an escape, or between single quotes,
where every character is itself. Between three quotes of a kind it may go over several lines; a
line feed right behind the opening quotes does not belong to it, and up to two more quotes may stand
right before the closing ones.
-/

namespace ArgFill.Toml

def hexDigit? (c : Char) : Option Nat :=
  if '0' ≤ c && c ≤ '9' then some (c.toNat - 48)
  else if 'a' ≤ c && c ≤ 'f' then some (c.toNat - 87)
  else if 'A' ≤ c && c ≤ 'F' then some (c.toNat - 55)
  else none

/-- The character whose code point is written by hexadecimal digits, if there is one. -/
def hexChar? (digits : Text) : Option Char := do
  let code := (← digits.mapM hexDigit?).foldl (fun n d => 16 * n + d) 0
  if code.isValidChar then some (Char.ofNat code) else none

def escape : Reader Char
  | 'b' :: t => some ('\x08', t)
  | 't' :: t => some ('\t', t)
  | 'n' :: t => some ('\n', t)
  | 'f' :: t => some ('\x0c', t)
  | 'r' :: t => some ('\r', t)
  | '"' :: t => some ('"', t)
  | '\\' :: t => some ('\\', t)
  | 'u' :: t => if t.length < 4 then none else (hexChar? (t.take 4)).map (·, t.drop 4)
  | 'U' :: t => if t.length < 8 then none else (hexChar? (t.take 8)).map (·, t.drop 8)
  | _ => none

/-- How one kind of quoted text is read: what ends it, with the last part of the content, and what
its content is made of. -/
structure QuoteStyle where
  close : Reader Text
  part : Reader Text

namespace QuoteStyle

/-- The content and the closing quotes, with at most `fuel` parts. -/
def contentUpTo (style : QuoteStyle) : Nat → Reader Text
  | 0, _ => none
  | fuel + 1, t =>
    match style.close t with
    | some ending => some ending
    | none => do
      let (part, rest) ← style.part t
      let (content, rest) ← contentUpTo style fuel rest
      pure (part ++ content, rest)

def content (style : QuoteStyle) : Reader Text := fun t => contentUpTo style (t.length + 1) t

def closeOne (quote : Char) : Reader Text
  | [] => none
  | c :: t => if c = quote then some ([], t) else none

/-- Three closing quotes; up to two quotes before them are content. -/
def closeThree (quote : Char) : Reader Text := fun t =>
  let run := (t.takeWhile (· == quote)).length
  if run < 3 then none
  else
    let extra := min (run - 3) 2
    some (List.replicate extra quote, t.drop (extra + 3))

/-- One character of a text where every character is itself. -/
def literalPart (lines : Bool) : Reader Text
  | [] => none
  | c :: t => if isPlain c || (lines && c = '\n') then some ([c], t) else none

/-- One character or escape of a text with escapes. Over several lines, a backslash at the end of a
line takes away all white space up to the next character. -/
def escapedPart (lines : Bool) : Reader Text
  | '\\' :: t =>
    match skipGaps t with
    | '\n' :: rest =>
      if lines then some ([], rest.dropWhile fun c => isGap c || c = '\n') else none
    | _ => (escape t).map fun (c, rest) => ([c], rest)
  | t => literalPart lines t

def double : QuoteStyle := ⟨closeOne '"', escapedPart false⟩

def single : QuoteStyle := ⟨closeOne '\'', literalPart false⟩

def threeDouble : QuoteStyle := ⟨closeThree '"', escapedPart true⟩

def threeSingle : QuoteStyle := ⟨closeThree '\'', literalPart true⟩

end QuoteStyle

def quotedLine : Reader Text
  | '"' :: t => QuoteStyle.double.content t
  | '\'' :: t => QuoteStyle.single.content t
  | _ => none

def skipLineFeed : Text → Text
  | '\n' :: t => t
  | t => t

def quoted : Reader Text
  | '"' :: '"' :: '"' :: t => QuoteStyle.threeDouble.content (skipLineFeed t)
  | '\'' :: '\'' :: '\'' :: t => QuoteStyle.threeSingle.content (skipLineFeed t)
  | t => quotedLine t

end ArgFill.Toml
