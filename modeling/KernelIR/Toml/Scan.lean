import KernelIR.Stem

/-!
# Scanners

A scanner reads from the front of a text and answers what it read and the rest, or fails.  Loops run
at most as often as there are characters left.
-/

namespace KernelIR.Toml

abbrev Scan := StateT (List Char) Option

namespace Scan

variable {α : Type}

def fail : Scan α := fun _ => none

def next (p : Char → Bool) : Scan Char
  | [] => none
  | c :: rest => if p c then some (c, rest) else none

def char (c : Char) : Scan Unit := do
  let _ ← next (· == c)

def word (stem : List Char) : Scan Unit := fun text => (afterStem? stem text).map ((), ·)

def tryChar (c : Char) : Scan Bool
  | [] => some (false, [])
  | d :: rest => if d = c then some (true, rest) else some (false, d :: rest)

def takeWhile (p : Char → Bool) : Scan (List Char) := fun text =>
  some (text.takeWhile p, text.dropWhile p)

def takeWhile1 (p : Char → Bool) : Scan (List Char) := do
  let cs ← takeWhile p
  if cs.isEmpty then fail else return cs

def atEnd : Scan Bool := fun text => some (text.isEmpty, text)

def manyUpTo (x : Scan α) : Nat → Scan (List α)
  | 0 => pure []
  | n + 1 => fun text =>
    match x text with
    | none => some ([], text)
    | some (a, rest) => (manyUpTo x n rest).map fun (as, end_) => (a :: as, end_)

def many (x : Scan α) : Scan (List α) := fun text => manyUpTo x text.length text

def hexDigit : Scan Nat := do
  let c ← next fun c => c.isDigit || ('a' ≤ c && c ≤ 'f') || ('A' ≤ c && c ≤ 'F')
  return if c.isDigit then c.toNat - '0'.toNat else c.toUpper.toNat - 'A'.toNat + 10

def hexNumber : Nat → Scan Nat
  | 0 => pure 0
  | n + 1 => do
    let high ← hexDigit
    return high * 16 ^ n + (← hexNumber n)

def decimal (n : Nat) : Scan Nat := fun text =>
  let digits := text.take n
  if digits.length = n ∧ digits.all Char.isDigit then
    some (Nat.ofDigitChars 10 digits 0, text.drop n)
  else none

def whole? (x : Scan α) (text : List Char) : Option α :=
  match x text with
  | some (a, []) => some a
  | _ => none

end Scan

/-! ## Blanks, line ends and comments -/

def isSpace (c : Char) : Bool := c == ' ' || c == '\t'

/-- Characters that comments and strings may hold: no control character but the tabulator. -/
def isPlain (c : Char) : Bool := c == '\t' || (0x20 ≤ c.toNat && c.toNat != 0x7f)

namespace Scan

def spaces : Scan Unit := do
  let _ ← takeWhile isSpace

def newline : Scan Unit := char '\n' <|> word ['\r', '\n']

def comment : Scan Unit := do
  if ← tryChar '#' then
    let _ ← takeWhile isPlain

def blanks : Scan Unit := do
  let _ ← many ((do let _ ← takeWhile1 isSpace) <|> newline <|> (do
    char '#'
    let _ ← takeWhile isPlain
    newline))

end Scan

end KernelIR.Toml
