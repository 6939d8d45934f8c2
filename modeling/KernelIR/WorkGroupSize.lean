import KernelIR.Blank
import KernelIR.Demangler
import KernelIR.ModuleM
import KernelIR.Stem

/-!
# Work-group sizes

The size of work groups that a kernel requires is written into its type as template arguments: the
integers that the argument list starts with, of which there have to be three.
-/

namespace KernelIR

structure WorkGroupSize where
  x : Nat
  y : Nat
  z : Nat
  deriving DecidableEq, Inhabited

namespace WorkGroupSize

def marker : String := "cl::sycl::xilinx::reqd_work_group_size<"

def metadataKey : String := "reqd_work_group_size"

def consFirst (c : Char) : List (List Char) → List (List Char)
  | [] => [[c]]
  | first :: rest => (c :: first) :: rest

/-- The template arguments up to the closing bracket, `depth` brackets inside the list.  Commas
separate arguments outside nested brackets only; a list that is not closed ends with the text. -/
def templateArgs (depth : Nat) : List Char → List (List Char)
  | [] => [[]]
  | c :: text =>
    if c = '>' ∧ depth = 0 then [[]]
    else if c = ',' ∧ depth = 0 then [] :: templateArgs 0 text
    else
      let depth' := if c = '<' then depth + 1 else if c = '>' then depth - 1 else depth
      consFirst c (templateArgs depth' text)

/-- The suffixes of integer literals in the order in which they are tried. -/
def literalSuffixes : List (List Char) :=
  [['u', 'l', 'l'], ['u', 'l'], ['l', 'l'], ['u'], ['l']]

def beforeEnding? (ending text : List Char) : Option (List Char) :=
  if ending.isSuffixOf (text.map Char.toLower) then
    some (text.take (text.length - ending.length))
  else none

def literal? (arg : List Char) : Option Nat :=
  let text := trimBlanks arg
  let digits := (literalSuffixes.findSome? fun s => beforeEnding? s text).getD text
  if !digits.isEmpty && digits.all Char.isDigit then
    let value := Nat.ofDigitChars 10 digits 0
    if value < UInt32.size then some value else none
  else none

def leadingLiterals : List (List Char) → List Nat
  | [] => []
  | arg :: args =>
    match literal? arg with
    | some value => value :: leadingLiterals args
    | none => []

/-- The size that the readable name of a kernel carries, if it has the marker.  Only the first
marker counts. -/
def ofDemangled (kernel demangled : String) : Except Failure (Option WorkGroupSize) :=
  match fromStem? marker.toList demangled.toList with
  | none => .ok none
  | some marked =>
    match leadingLiterals (templateArgs 0 (marked.drop marker.length)) with
    | [x, y, z] => .ok (some ⟨x, y, z⟩)
    | sizes => .error (.workGroupSize kernel (String.ofList marked) sizes.length)

def node (s : WorkGroupSize) : MetadataNode := .ofNats [s.x, s.y, s.z]

end WorkGroupSize

def Module.attachWorkGroupSize (m : Module) (id : FuncId) (d : Demangler) :
    Except Failure (Bool × Module) :=
  match m.funcs.get? id with
  | none => .error (.deadHandle id)
  | some f =>
    match WorkGroupSize.ofDemangled f.name (d.orRaw f.name) with
    | .error e => .error e
    | .ok none => .ok (false, m)
    | .ok (some size) =>
      .ok (true, m.modifyFunc id fun f =>
        { f with metadata := f.metadata.insert WorkGroupSize.metadataKey size.node })

end KernelIR
