import KernelIR.Toml.Scalar

/-!
# Documents

Lines of pairs and headers, and the table that they define.  Arrays and inline tables may go over
several lines and end with a comma.
-/

namespace KernelIR.Toml

namespace Scan

/-! ## Strings -/

/-- What follows a backslash: a letter for a control character, or a code point. -/
def escaped : Scan Char := do
  match ← next fun _ => true with
  | 'b' => return '\x08'
  | 't' => return '\t'
  | 'n' => return '\n'
  | 'f' => return '\x0c'
  | 'r' => return '\r'
  | 'e' => return '\x1b'
  | '"' => return '"'
  | '\\' => return '\\'
  | 'x' => codePoint (← hexNumber 2)
  | 'u' => codePoint (← hexNumber 4)
  | 'U' => codePoint (← hexNumber 8)
  | _ => fail
where
  codePoint (n : Nat) : Scan Char := if n.isValidChar then return Char.ofNat n else fail

def basicChar : Scan Char :=
  next (fun c => isPlain c && c != '"' && c != '\\') <|> (do char '\\'; escaped)

def basicString : Scan String := do
  char '"'
  let cs ← many basicChar
  char '"'
  return String.ofList cs

def literalString : Scan String := do
  char '\''
  let cs ← takeWhile fun c => isPlain c && c != '\''
  char '\''
  return String.ofList cs

def innerQuotes (quote : Char) : Scan (List Char) := fun text =>
  let quotes := text.takeWhile (· == quote)
  if 1 ≤ quotes.length ∧ quotes.length ≤ 2 then
    some (quotes, text.dropWhile (· == quote))
  else none

/-- The three closing quotes; up to two in front of them belong to the string. -/
def closingQuotes (quote : Char) : Scan (List Char) := fun text =>
  let quotes := text.takeWhile (· == quote)
  if 3 ≤ quotes.length ∧ quotes.length ≤ 5 then
    some (quotes.drop 3, text.dropWhile (· == quote))
  else none

/-- A backslash at the end of a line drops the blanks and line ends that follow. -/
def lineContinuation : Scan (List Char) := do
  char '\\'
  spaces
  newline
  let _ ← many ((do let _ ← takeWhile1 isSpace) <|> newline)
  return []

def lineBreak : Scan (List Char) := do
  newline
  return ['\n']

/-- A string over several lines of the given parts; a line end right after the opening quotes does
not belong to it. -/
def multiline (quote : Char) (part : Scan (List Char)) : Scan String := do
  word [quote, quote, quote]
  newline <|> pure ()
  let parts ← many (lineBreak <|> innerQuotes quote <|> part)
  let last ← closingQuotes quote
  return String.ofList (parts.flatten ++ last)

def multilineBasic : Scan String :=
  multiline '"' (lineContinuation <|> (do return [← basicChar]))

def multilineLiteral : Scan String :=
  multiline '\'' (do return [← next fun c => isPlain c && c != '\''])

/-- A string of any form.  The form over several lines is tried first: it starts like the others. -/
def string : Scan String := multilineBasic <|> basicString <|> multilineLiteral <|> literalString

/-! ## Keys -/

def isBareKeyChar (c : Char) : Bool := c.isAlphanum || c == '_' || c == '-'

def simpleKey : Scan String :=
  basicString <|> literalString <|> (do return String.ofList (← takeWhile1 isBareKeyChar))

def partLimit : Nat := 80

/-- The parts of a dotted key before the last, and the last. -/
def key : Scan (List String × String) := do
  let first ← simpleKey
  let rest ← many do
    spaces
    char '.'
    spaces
    simpleKey
  guardThat (rest.length < partLimit)
  return ((first :: rest).dropLast, (first :: rest).getLast (by simp))

/-! ## Values -/

/-- Items up to a closing character, with a comma after each but the last, which may have one. -/
def listUpTo {α : Type} (item : Scan α) (close : Char) : Nat → Scan (List α)
  | 0 => fail
  | n + 1 => do
    if ← tryChar close then return []
    let a ← item
    blanks
    if ← tryChar ',' then
      blanks
      return a :: (← listUpTo item close n)
    else
      char close
      return [a]

def list {α : Type} (item : Scan α) (open_ close : Char) : Scan (List α) := do
  char open_
  blanks
  fun text => listUpTo item close (text.length + 1) text

abbrev Pair := List String × String × Value

/-- A key and its value, with a gap on both sides of the sign between them. -/
def pair (gap : Scan Unit) (value : Scan Value) : Scan Pair := do
  let (path, last) ← key
  gap
  char '='
  gap
  return (path, last, ← value)

def addPairs (pairs : List Pair) (t : Table) : Option Table :=
  pairs.foldlM (fun t p => t.addPair p.1 p.2.1 p.2.2) t

def inlineTable (value : Scan Value) : Scan Value := do
  let pairs ← list (pair blanks value) '\x7b' '\x7d'
  match addPairs pairs (.empty .explicit) with
  | some t => return .table .inline t.entries
  | none => fail

/-- A value with at most `depth` brackets around its parts. -/
def value : (depth : Nat) → Scan Value
  | 0 => (do return .string (← string)) <|> scalar
  | depth + 1 =>
    (do return .array false (← list (value depth) '[' ']')) <|> inlineTable (value depth) <|>
      (do return .string (← string)) <|> scalar

def depthLimit : Nat := 80

/-! ## Lines -/

end Scan

/-- A header opens a table, or one more table of an array. -/
structure Header where
  isArray : Bool
  path : List String
  last : String

inductive Line where
  | blank
  | pair (p : Scan.Pair)
  | header (h : Header)

namespace Scan

def header : Scan Header :=
  (do
    word ['[', '[']
    spaces
    let (path, last) ← key
    spaces
    word [']', ']']
    return ⟨true, path, last⟩) <|> (do
    char '['
    spaces
    let (path, last) ← key
    spaces
    char ']'
    return ⟨false, path, last⟩)

def line : Scan Line := do
  spaces
  let content ← (do return .header (← header)) <|>
    (do return .pair (← pair spaces (value depthLimit))) <|> pure .blank
  spaces
  comment
  return content

def linesUpTo : Nat → Scan (List Line)
  | 0 => fail
  | n + 1 => do
    let first ← line
    if ← atEnd then return [first]
    newline
    return first :: (← linesUpTo n)

def lines : Scan (List Line) := do
  let _ ← tryChar '\ufeff'
  fun text => linesUpTo (text.length + 1) text

end Scan

namespace Line

/-- The pairs in front of the first header, and the pairs under each header. -/
def sections : List Line → List Scan.Pair × List (Header × List Scan.Pair)
  | [] => ([], [])
  | blank :: rest => sections rest
  | pair p :: rest =>
    let (pairs, later) := sections rest
    (p :: pairs, later)
  | header h :: rest =>
    let (pairs, later) := sections rest
    ([], (h, pairs) :: later)

end Line

def addSection (root : Table) (s : Header × List Scan.Pair) : Option Table :=
  let (h, pairs) := s
  if h.isArray then root.append (Scan.addPairs pairs) h.path h.last
  else root.define (Scan.addPairs pairs) h.path h.last

def parse? (source : String) : Option Table := do
  let lines ← Scan.lines.whole? source.toList
  let (pairs, later) := Line.sections lines
  let root ← Scan.addPairs pairs (.empty .explicit)
  later.foldlM addSection root

end KernelIR.Toml
