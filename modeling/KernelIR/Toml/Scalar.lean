import KernelIR.Toml.Scan
import KernelIR.Toml.Value

/-!
# Numbers, truth values and dates

Values that are written without quotes or brackets.
-/

namespace KernelIR.Toml

/-! ## Numbers -/

/-- Digits with single underscores between them, without the underscores. -/
def ungroup? (isDigit : Char → Bool) : List Char → Option (List Char)
  | [] => none
  | [c] => if isDigit c then some [c] else none
  | c :: '_' :: rest => if isDigit c then (ungroup? isDigit rest).map (c :: ·) else none
  | c :: rest => if isDigit c then (ungroup? isDigit rest).map (c :: ·) else none

def unpadded? (text : List Char) : Option (List Char) :=
  (ungroup? Char.isDigit text).bind fun digits =>
    match digits with
    | '0' :: _ :: _ => none
    | _ => some digits

def digitValue (c : Char) : Nat :=
  if c.isDigit then c.toNat - '0'.toNat else c.toLower.toNat - 'a'.toNat + 10

def inBase (base : Nat) (text : List Char) : Option Nat :=
  (ungroup? (fun c => (c.isDigit || c.isAlpha) && digitValue c < base) text).map fun digits =>
    digits.foldl (fun n c => base * n + digitValue c) 0

def signed : List Char → Bool × List Char
  | '-' :: rest => (true, rest)
  | '+' :: rest => (false, rest)
  | text => (false, text)

/-- An integer of at most 128 bits; those with a base have no sign. -/
def integer? (text : List Char) : Option Int :=
  let magnitude := match text with
    | '0' :: 'x' :: digits => (inBase 16 digits).map Int.ofNat
    | '0' :: 'o' :: digits => (inBase 8 digits).map Int.ofNat
    | '0' :: 'b' :: digits => (inBase 2 digits).map Int.ofNat
    | _ =>
      let (negative, digits) := signed text
      (unpadded? digits).map fun ds =>
        let n := Nat.ofDigitChars 10 ds 0
        if negative then -n else n
  magnitude.bind fun n =>
    if -0x80000000000000000000000000000000 ≤ n ∧ n < 0x100000000000000000000000000000000 then some n
    else none

/-- The decimal `m · 10 ^ (e - f)` is finite when it is rounded to 53 bits. -/
def isFinite (m e f : Nat) : Bool :=
  let limit := 1 <<< 1024 - 1 <<< 970
  let digits := (Nat.toDigits 10 m).length
  if m = 0 then true
  else if digits + e > f + 400 then false
  else if digits + e < f + 200 then true
  else m * Nat.pow 10 e < limit * Nat.pow 10 f

/-- The parts of a float: digits, a fraction and an exponent.  One of the latter two is there. -/
def isDecimalFloat (text : List Char) : Bool :=
  let part := fun c : Char => c.isDigit || c == '_'
  let whole := text.takeWhile part
  let (fraction, rest) := match text.dropWhile part with
    | '.' :: rest => (some (rest.takeWhile part), rest.dropWhile part)
    | rest => (none, rest)
  let exponent := match rest with
    | 'e' :: rest | 'E' :: rest => some (signed rest)
    | _ => none
  let closed := exponent.isSome || rest.isEmpty
  match unpadded? whole, fraction.map (ungroup? Char.isDigit),
      exponent.map fun e => (e.1, ungroup? Char.isDigit e.2) with
  | some ds, none, some (negative, some es) => closed && finite ds [] negative es
  | some ds, some (some fs), none => closed && finite ds fs false []
  | some ds, some (some fs), some (negative, some es) => closed && finite ds fs negative es
  | _, _, _ => false
where
  finite (ds fs : List Char) (negative : Bool) (es : List Char) : Bool :=
    let m := Nat.ofDigitChars 10 (ds ++ fs) 0
    let e := Nat.ofDigitChars 10 es 0
    if negative then isFinite m 0 (fs.length + e) else isFinite m e fs.length

def isFloat (text : List Char) : Bool :=
  let (_, rest) := signed text
  rest == ['i', 'n', 'f'] || rest == ['n', 'a', 'n'] || isDecimalFloat rest

/-! ## Dates -/

def isLeapYear (year : Nat) : Bool := year % 4 == 0 && (year % 100 != 0 || year % 400 == 0)

def daysInMonth (year month : Nat) : Nat :=
  if month = 2 then if isLeapYear year then 29 else 28
  else if month = 4 ∨ month = 6 ∨ month = 9 ∨ month = 11 then 30
  else 31

namespace Scan

def guardThat (b : Bool) : Scan Unit := if b then pure () else fail

def date : Scan Unit := do
  let year ← decimal 4
  char '-'
  let month ← decimal 2
  char '-'
  let day ← decimal 2
  guardThat (1 ≤ month && month ≤ 12 && 1 ≤ day && day ≤ daysInMonth year month)

/-- Hours and minutes; seconds may be left out, and may be a leap second. -/
def time : Scan Unit := do
  let hour ← decimal 2
  char ':'
  let minute ← decimal 2
  guardThat (hour ≤ 23 && minute ≤ 59)
  if ← tryChar ':' then
    let second ← decimal 2
    guardThat (second ≤ 60)
    if ← tryChar '.' then
      let _ ← takeWhile1 Char.isDigit

def offset : Scan Unit :=
  char 'Z' <|> char 'z' <|> (do
    let _ ← next fun c => c == '+' || c == '-'
    let hour ← decimal 2
    char ':'
    let minute ← decimal 2
    guardThat (hour ≤ 23 && minute ≤ 59))

def datetime : Scan Unit :=
  (do
    date
    unless ← atEnd do
      let _ ← next fun c => c == 'T' || c == 't' || c == ' '
      time
      unless ← atEnd do offset) <|> time

end Scan

def isDatetime (text : List Char) : Bool := (Scan.whole? Scan.datetime text).isSome

def isDate (text : List Char) : Bool := (Scan.whole? Scan.date text).isSome

/-! ## Scalars -/

def scalar? (text : List Char) : Option Value :=
  if text = ['t', 'r', 'u', 'e'] then some (.boolean true)
  else if text = ['f', 'a', 'l', 's', 'e'] then some (.boolean false)
  else
    match integer? text with
    | some n => some (.integer n)
    | none =>
      if isFloat text then some .float
      else if isDatetime text then some .datetime
      else none

def isScalarChar (c : Char) : Bool :=
  c.isAlphanum || c == '+' || c == '-' || c == '_' || c == '.' || c == ':'

namespace Scan

/-- Reads a scalar.  A space may stand between a date and a time. -/
def scalar : Scan Value := do
  let token ← takeWhile1 isScalarChar
  let later ← fun text =>
    match text with
    | ' ' :: c :: rest =>
      if isDate token && c.isDigit then
        some (' ' :: (c :: rest).takeWhile isScalarChar, (c :: rest).dropWhile isScalarChar)
      else some ([], text)
    | _ => some ([], text)
  match scalar? (token ++ later) with
  | some v => return v
  | none => fail

end Scan

end KernelIR.Toml
