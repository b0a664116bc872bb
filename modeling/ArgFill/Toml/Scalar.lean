import ArgFill.Toml.Reader

/-!
# Numbers, truth values and dates in TOML

Rule books have no use for these values, so their readers only tell whether one stands here and
what comes behind it.

* `integer` : a whole number that fits 64 bits with sign;
* `float` : a number with a fraction or an exponent that does not round up to infinity, and the
  infinities and NaN by name;
* `date`, `time` : calendar dates with the days that the month has, times of day;
* `scalar` : any of these.
-/

namespace ArgFill.Toml

/-! ## Digits -/

def oneOf (p : Char → Bool) : Reader Char
  | [] => none
  | c :: t => if p c then some (c, t) else none

/-- A digit of a class behind at most one underscore. -/
def furtherDigit (p : Char → Bool) : Reader Char
  | '_' :: t => oneOf p t
  | t => oneOf p t

/-- One or more digits of a class, with single underscores between them. -/
def digits (p : Char → Bool) : Reader Text := fun t => do
  let (first, rest) ← oneOf p t
  let (others, rest) := Reader.many (furtherDigit p) rest
  pure (first :: others, rest)

def valueOf (base : Nat) (ds : Text) : Nat :=
  ds.foldl (fun n c => base * n + (if c.isDigit then c.toNat - 48 else c.toLower.toNat - 87)) 0

/-- A sign, if there is one: is it a minus? -/
def sign : Text → Bool × Text
  | '+' :: t => (false, t)
  | '-' :: t => (true, t)
  | t => (false, t)

/-- The whole part of a decimal number: no zero before another digit. -/
def wholePart : Reader Text
  | '0' :: t => some (['0'], t)
  | t => digits Char.isDigit t

/-! ## Numbers -/

def isHexDigit (c : Char) : Bool :=
  c.isDigit || ('a' ≤ c && c ≤ 'f') || ('A' ≤ c && c ≤ 'F')

/-- The first number above those that fit 64 bits with sign. -/
def integerBound : Nat := 0x8000000000000000

/-- A number in another base than ten, behind its mark. -/
def based (base : Nat) (p : Char → Bool) : Reader Unit := fun t => do
  let (ds, rest) ← digits p t
  if valueOf base ds < integerBound then some ((), rest) else none

def integer : Reader Unit
  | '0' :: 'x' :: t => based 16 isHexDigit t
  | '0' :: 'o' :: t => based 8 (fun c => '0' ≤ c && c ≤ '7') t
  | '0' :: 'b' :: t => based 2 (fun c => c = '0' || c = '1') t
  | t => do
    let (negative, rest) := sign t
    let (ds, rest) ← wholePart rest
    let bound := if negative then integerBound + 1 else integerBound
    if valueOf 10 ds < bound then some ((), rest) else none

def exponent : Reader (Bool × Text) := fun t => do
  let (_, rest) ← oneOf (fun c => c = 'e' || c = 'E') t
  let (negative, rest) := sign rest
  let (ds, rest) ← digits Char.isDigit rest
  pure ((negative, ds), rest)

def fraction : Reader Text
  | '.' :: t => digits Char.isDigit t
  | _ => none

/-- Does the number with these digits, times a power of ten, round to a finite double? Those that
do are less than half a step above the greatest one. -/
def isFinite (mantissa : Nat) (exponent : Int) : Bool :=
  let size := (Nat.toDigits 10 mantissa).length
  if mantissa = 0 || exponent + size < 300 then true
  else if exponent + size > 400 then false
  else
    let bound := Nat.pow 2 1024 - Nat.pow 2 970
    let scale := Nat.pow 10 exponent.natAbs
    if exponent < 0 then mantissa < bound * scale else mantissa * scale < bound

/-- A number with a fraction or an exponent. Below zero it may be as far away as it likes. -/
def decimalFloat : Reader Unit := fun t => do
  let (negative, rest) := sign t
  let (whole, rest) ← wholePart rest
  let (frac, rest) := ((fraction rest).map fun (f, r) => (some f, r)).getD (none, rest)
  let (exp, rest) := ((exponent rest).map fun (e, r) => (some e, r)).getD (none, rest)
  if frac.isNone && exp.isNone then none
  else
    let places := frac.getD []
    let (down, ds) := exp.getD (false, [])
    let shift : Int := if down then -(valueOf 10 ds : Int) else valueOf 10 ds
    if negative || isFinite (valueOf 10 (whole ++ places)) (shift - places.length) then
      some ((), rest)
    else none

def namedFloat : Reader Unit := fun t =>
  let rest := (sign t).2
  Reader.or (Reader.word "inf") (Reader.word "nan") rest

def float : Reader Unit := Reader.or decimalFloat namedFloat

/-! ## Dates and times -/

/-- A number of exactly `count` digits between two bounds. -/
def numeral (count least greatest : Nat) : Reader Nat := fun t =>
  let ds := t.take count
  let n := valueOf 10 ds
  if ds.length = count && ds.all Char.isDigit && least ≤ n && n ≤ greatest then
    some (n, t.drop count)
  else none

def daysOf (year month : Nat) : Nat :=
  if month = 2 then
    if year % 4 = 0 && (year % 100 != 0 || year % 400 = 0) then 29 else 28
  else if [4, 6, 9, 11].contains month then 30
  else 31

def date : Reader Unit := fun t => do
  let (year, rest) ← numeral 4 0 9999 t
  let (_, rest) ← Reader.char '-' rest
  let (month, rest) ← numeral 2 1 12 rest
  let (_, rest) ← Reader.char '-' rest
  let (_, rest) ← numeral 2 1 (daysOf year month) rest
  pure ((), rest)

/-- A time of day; a minute may have a second more. -/
def time : Reader Unit := fun t => do
  let (_, rest) ← numeral 2 0 23 t
  let (_, rest) ← Reader.char ':' rest
  let (_, rest) ← numeral 2 0 59 rest
  let (_, rest) ← Reader.char ':' rest
  let (_, rest) ← numeral 2 0 60 rest
  match rest with
  | '.' :: t =>
    let (_, rest) ← oneOf Char.isDigit t
    pure ((), rest.dropWhile Char.isDigit)
  | _ => pure ((), rest)

def zone : Reader Unit
  | 'Z' :: t | 'z' :: t => some ((), t)
  | '+' :: t | '-' :: t => do
    let (_, rest) ← numeral 2 0 23 t
    let (_, rest) ← Reader.char ':' rest
    let (_, rest) ← numeral 2 0 59 rest
    pure ((), rest)
  | _ => none

def timeOfDate : Reader Unit := fun t => do
  let (_, rest) ← oneOf (fun c => c = 'T' || c = 't' || c = ' ') t
  let (_, rest) ← time rest
  pure ((zone rest).getD ((), rest))

def dateTime : Reader Unit :=
  Reader.or (fun t => do
    let (_, rest) ← date t
    pure ((timeOfDate rest).getD ((), rest))) time

/-! ## Any of them -/

def truth : Reader Unit := Reader.or (Reader.word "true") (Reader.word "false")

/-- A number, a truth value or a date. -/
def scalar : Reader Unit := [dateTime, float, integer].foldr Reader.or truth

end ArgFill.Toml
