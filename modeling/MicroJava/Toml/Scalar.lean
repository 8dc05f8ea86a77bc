import MicroJava.Toml.Table

/-!
# Plain TOML values

Values written without quotes or brackets: truth values, integers, numbers with a fraction or an
exponent, dates and times. Integers have 64 bits. A number too large for binary64 is refused, unless
it is negative.
-/

namespace MicroJava.Toml

/-- The digits of a run in which single underscores may stand between digits. -/
def digitRun? (isDigit : Char → Bool) : List Char → Option (List Char)
  | [] => none
  | [c] => if isDigit c then some [c] else none
  | c :: '_' :: cs => if isDigit c then (digitRun? isDigit cs).map (c :: ·) else none
  | c :: cs => if isDigit c then (digitRun? isDigit cs).map (c :: ·) else none

/-- The value of a digit, with letters for ten and more. -/
def digitValue (c : Char) : Nat :=
  if c.isDigit then c.toNat - '0'.toNat else c.toLower.toNat - 'a'.toNat + 10

/-- The number that digits stand for in a base. -/
def number (base : Nat) (digits : List Char) : Nat :=
  digits.foldl (fun n d => base * n + digitValue d) 0

/-- A sign in front of a number, and the rest. -/
def splitSign : List Char → Bool × List Char
  | '+' :: cs => (false, cs)
  | '-' :: cs => (true, cs)
  | cs => (false, cs)

/-- A run of decimal digits without a leading zero. -/
def decimal? (cs : List Char) : Option (List Char) :=
  (digitRun? Char.isDigit cs).filter fun ds => ds.head? ≠ some '0' || cs.length = 1

def isHexDigit (c : Char) : Bool :=
  c.isDigit || ('a' ≤ c && c ≤ 'f') || ('A' ≤ c && c ≤ 'F')

/-- The integer of 64 bits that a plain value stands for. -/
def integer? (cs : List Char) : Option Int := do
  let v : Int ← match cs with
    | '0' :: 'x' :: ds => (digitRun? isHexDigit ds).map fun ds => (number 16 ds : Int)
    | '0' :: 'o' :: ds =>
      (digitRun? (fun c => '0' ≤ c && c ≤ '7') ds).map fun ds => (number 8 ds : Int)
    | '0' :: 'b' :: ds =>
      (digitRun? (fun c => c = '0' || c = '1') ds).map fun ds => (number 2 ds : Int)
    | _ =>
      let (negative, ds) := splitSign cs
      (decimal? ds).map fun ds => if negative then -(number 10 ds : Int) else number 10 ds
  if Int64.minValue.toInt ≤ v ∧ v ≤ Int64.maxValue.toInt then some v else none

/-- The number `digits · 10 ^ exponent` is too large for binary64: rounding to the nearest would
reach the first power of two past its range. -/
def overflows (digits : List Char) (exponent : Int) : Bool :=
  let digits := digits.dropWhile (· = '0')
  let magnitude : Int := digits.length + exponent
  if digits.isEmpty || magnitude < 308 then false
  else if 310 < magnitude then true
  else
    let n := number 10 digits
    let limit : Nat := (1 <<< 1024) - (1 <<< 970)
    if 0 ≤ exponent then limit ≤ n * Nat.pow 10 exponent.toNat
    else limit * Nat.pow 10 (-exponent).toNat ≤ n

/-- The exponent behind its letter. -/
def exponent? (cs : List Char) : Option Int :=
  let (negative, ds) := splitSign cs
  (digitRun? Char.isDigit ds).map fun ds => if negative then -(number 10 ds : Int) else number 10 ds

def isExponentLetter (c : Char) : Bool := c = 'e' || c = 'E'

/-- A number with a fraction or an exponent, or a special number. -/
def isFloat (cs : List Char) : Bool :=
  let (negative, cs) := splitSign cs
  if cs = ['i', 'n', 'f'] || cs = ['n', 'a', 'n'] then true
  else
    let whole := cs.takeWhile fun c => c ≠ '.' && !isExponentLetter c
    let parts : Option (List Char × Int) := do
      let ws ← decimal? whole
      match cs.drop whole.length with
      | '.' :: rest =>
        let fraction := rest.takeWhile (!isExponentLetter ·)
        let fs ← digitRun? Char.isDigit fraction
        match rest.drop fraction.length with
        | [] => return (ws ++ fs, -fs.length)
        | _ :: es => return (ws ++ fs, (← exponent? es) - fs.length)
      | [] => none
      | _ :: es => return (ws, ← exponent? es)
    parts.any fun (ds, e) => negative || !overflows ds e

/-- Exactly so many decimal digits in front, as a number, and the rest. -/
def fixedDigits? (count : Nat) (cs : List Char) : Option (Nat × List Char) :=
  let ds := cs.take count
  if ds.length = count && ds.all Char.isDigit then some (number 10 ds, cs.drop count) else none

/-- The rest behind a character. -/
def after? (p : Char → Bool) : List Char → Option (List Char)
  | [] => none
  | c :: cs => if p c then some cs else none

def isLeapYear (year : Nat) : Bool := year % 4 = 0 && (year % 100 ≠ 0 || year % 400 = 0)

def daysOfMonth (year month : Nat) : Nat :=
  match month with
  | 2 => if isLeapYear year then 29 else 28
  | 4 | 6 | 9 | 11 => 30
  | _ => 31

/-- The rest behind a date. -/
def date? (cs : List Char) : Option (List Char) := do
  let (year, cs) ← fixedDigits? 4 cs
  let (month, cs) ← fixedDigits? 2 (← after? (· = '-') cs)
  let (day, cs) ← fixedDigits? 2 (← after? (· = '-') cs)
  if 1 ≤ month ∧ month ≤ 12 ∧ 1 ≤ day ∧ day ≤ daysOfMonth year month then some cs else none

/-- The rest behind an hour and a minute. -/
def hourMinute? (cs : List Char) : Option (List Char) := do
  let (hour, cs) ← fixedDigits? 2 cs
  let (minute, cs) ← fixedDigits? 2 (← after? (· = ':') cs)
  if hour ≤ 23 ∧ minute ≤ 59 then some cs else none

/-- The rest behind a time of day. -/
def time? (cs : List Char) : Option (List Char) := do
  let (second, cs) ← fixedDigits? 2 (← after? (· = ':') (← hourMinute? cs))
  if 60 < second then none
  else
    match cs with
    | '.' :: c :: fs => if c.isDigit then some (fs.dropWhile Char.isDigit) else none
    | '.' :: [] => none
    | cs => some cs

/-- Nothing, or an offset from universal time. -/
def isOffset : List Char → Bool
  | [] | ['Z'] | ['z'] => true
  | '+' :: cs | '-' :: cs => hourMinute? cs = some []
  | _ => false

/-- A date, a time, or both; between them stands a letter or one blank. -/
def isDateTime (cs : List Char) : Bool :=
  match date? cs with
  | some [] => true
  | some (c :: rest) => (c = 'T' || c = 't' || c = ' ') && (time? rest).any isOffset
  | none => time? cs = some []

/-- The value that is written in plain characters. -/
def plainValue? (cs : List Char) : Option Value :=
  if cs = ['t', 'r', 'u', 'e'] || cs = ['f', 'a', 'l', 's', 'e'] || isFloat cs || isDateTime cs then
    some .other
  else (integer? cs).map .integer

end MicroJava.Toml
