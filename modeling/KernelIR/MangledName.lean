import KernelIR.ModuleM
import KernelIR.Stem

/-!
# Mangled names

A mangled identifier is written behind its length.  Frontends put builtins into name spaces that
the backend library does not know: their stems are taken off, and the length becomes smaller by as
much.
-/

namespace KernelIR.MangledName

/-- The name spaces of builtins in the order in which they are tried: of two that overlap the
longer comes first. -/
def builtinStems : List String :=
  ["__spirv_ocl_u_", "__spirv_ocl_s_", "__spirv_ocl_", "__spir_ocl_"]

/-- A length field followed by a stem, and the text on both sides. -/
structure Occurrence where
  before : List Char
  digits : List Char
  after : List Char
  deriving DecidableEq

/-- The length field and what follows the stem, when a text starts with a length field and the
stem. -/
def matchHere? (stem : List Char) : List Char → Option (List Char × List Char)
  | '_' :: 'Z' :: rest =>
    let digits := rest.takeWhile Char.isDigit
    if digits.isEmpty then none
    else (afterStem? stem (rest.dropWhile Char.isDigit)).map fun after => (digits, after)
  | _ => none

def find? (stem : List Char) : List Char → Option Occurrence
  | [] => none
  | c :: text =>
    match matchHere? stem (c :: text) with
    | some (digits, after) => some ⟨[], digits, after⟩
    | none => (find? stem text).map fun o => { o with before := c :: o.before }

/-- Takes `stem` off the first identifier that starts with it.  The length field moves to the front
of the name; it has to fit a machine word and to be no less than what is taken off. -/
def strip (stem name : String) : Except Failure (Option String) :=
  match find? stem.toList name.toList with
  | none => .ok none
  | some o =>
    let length := Nat.ofDigitChars 10 o.digits 0
    if length < UInt64.size ∧ stem.utf8ByteSize ≤ length then
      .ok (some (s!"_Z{length - stem.utf8ByteSize}" ++ String.ofList (o.before ++ o.after)))
    else .error (.lengthField name stem)

/-- Takes every builtin stem off, each from what the one before it left. -/
def normalize (name : String) : Except Failure String :=
  builtinStems.foldlM (fun name stem => do return (← strip stem name).getD name) name

end KernelIR.MangledName
