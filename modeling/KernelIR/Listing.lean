import KernelIR.Module

/-!
# Listings

The text of instructions, functions and modules.  With a module at hand, symbols are written by
name; without one, and for handles that are not live, the handle itself is written.
-/

namespace KernelIR

/-- The module that a listing takes names from, if any. -/
abbrev Naming := Option Module

def commaSeparated (parts : List String) : String := ", ".intercalate parts

def braced (body : String) : String := "\x7b" ++ body ++ "\x7d"

namespace Naming

def func (n : Naming) (id : FuncId) : String :=
  match n.bind fun m => m.funcs.get? id with
  | some f => s!"@{f.name}"
  | none => s!"@<{id.text}>"

def global (n : Naming) (id : GlobalId) : String :=
  match n.bind fun m => m.globals.get? id with
  | some g => s!"@{g.name}"
  | none => s!"@<{id.text}>"

end Naming

def Operand.text (n : Naming) : Operand → String
  | .reg r => r.text
  | .arg index => s!"%arg{index}"
  | .imm c => c.text
  | .func id => n.func id
  | .global id => n.global id
  | .undefined => "undef"

def operandsText (n : Naming) (ops : List Operand) : String :=
  commaSeparated (ops.map (Operand.text n))

def Callee.text (n : Naming) : Callee → String
  | .direct id => n.func id
  | .cast id => s!"(cast {n.func id})"
  | .indirect op => op.text n

namespace Instr

def volatileText (volatile : Bool) : String := if volatile then " volatile" else ""

def rightHandText (n : Naming) : Instr → String
  | arith op _ ty lhs rhs => s!"{op.mnemonic} {ty.text} {operandsText n [lhs, rhs]}"
  | icmp _ rel lhs rhs => s!"icmp {rel.text} {operandsText n [lhs, rhs]}"
  | load _ ty addr volatile =>
    s!"load{volatileText volatile} {ty.text}, {addr.text n}"
  | store addr value volatile =>
    s!"store{volatileText volatile} {operandsText n [value, addr]}"
  | gep _ _ elemTy base indices =>
    s!"getelementptr {elemTy.text}, {operandsText n (base :: indices)}"
  | call c =>
    s!"call {c.conv.text} {c.ty.text} {c.callee.text n}({operandsText n c.args})"
  | phi p =>
    let choices := p.incoming.map fun e => s!"[{e.2.text n}, {e.1.text}]"
    s!"phi {p.ty.text} {commaSeparated choices}"
  | cast c => s!"{c.kind.text} {c.value.text n} to {c.ty.text}"

def text (n : Naming) (i : Instr) : String :=
  match i.dest? with
  | some r => s!"{r.text} = {i.rightHandText n}"
  | none => i.rightHandText n

end Instr

def Label.targetText (l : Label) : String := s!"label %{l.text}"

def Terminator.text (n : Naming) : Terminator → String
  | .branch cond ifTrue ifFalse =>
    s!"br {cond.text n}, {ifTrue.targetText}, {ifFalse.targetText}"
  | .jump target => s!"br {target.targetText}"
  | .ret (some value) => s!"ret {value.text n}"
  | .ret none => "ret void"
  | .unreachable => "unreachable"

def Param.text (p : Param) : String :=
  match p.name with
  | some name => if name.isEmpty then p.ty.text else s!"{p.ty.text} %{name}"
  | none => p.ty.text

def Block.lines (n : Naming) (b : Block) : List String :=
  (b.instrs.map (Instr.text n) ++ [b.terminator.text n]).map fun line => s!"  {line}\n"

namespace Func

def headerText (f : Func) : String :=
  let keyword := if f.isDeclaration then "declare" else "define"
  let params := commaSeparated (f.params.map Param.text)
  s!"{keyword} {f.linkage.text} {f.conv.text} {f.retTy.text} @{f.name}({params})"

def trailerText (f : Func) : String :=
  let attributes := if f.attributes.isEmpty then "" else s!" {f.attributes.text}"
  let comdat := match f.comdat with
    | some name => s!" comdat({name})"
    | none => ""
  let metadata := f.metadata.entries.map fun e => s!" !{e.1} {e.2.text}"
  attributes ++ comdat ++ String.join metadata

def bodyText (n : Naming) (f : Func) : String :=
  String.join (f.body.entries.flatMap fun (label, b) => s!"{label.text}:\n" :: b.lines n)

def text (n : Naming) (f : Func) : String :=
  let header := f.headerText ++ f.trailerText
  if f.isDeclaration then header ++ "\n"
  else header ++ " \x7b\n" ++ f.bodyText n ++ "\x7d\n"

end Func

/-- A byte stands for itself if it is a printable ASCII character, else it is written in hex. -/
def byteText (b : UInt8) : String :=
  if 0x20 ≤ b && b ≤ 0x7e then (Char.ofNat b.toNat).toString
  else
    let digit (d : UInt8) := String.ofList ((Nat.toDigits 16 d.toNat).map Char.toUpper)
    "\\" ++ digit (b / 16) ++ digit (b % 16)

def Initializer.text (n : Naming) : Initializer → String
  | .zero => "zeroinitializer"
  | .int c => toString c.value
  | .bytes data => "c\"" ++ String.join (data.map byteText) ++ "\""
  | .functions list => s!"[{commaSeparated (list.map n.func)}]"

def Global.text (n : Naming) (g : Global) : String :=
  let header := s!"@{g.name} = {g.linkage.text} {g.space.text} global {g.ty.text}"
  let init := match g.init with
    | some i => s!" {i.text n}"
    | none => ""
  let comdat := match g.comdat with
    | some name => s!", comdat({name})"
    | none => ""
  header ++ init ++ comdat

def Module.text (m : Module) : String :=
  let triple := match m.triple with
    | some triple => s!"target triple = \"{triple}\"\n"
    | none => ""
  let globals := m.globals.values.map fun g => s!"{g.text (some m)}\n"
  let funcs := m.funcs.values.map fun f => s!"\n{f.text (some m)}"
  let named := m.named.entries.map fun (key, nodes) =>
    s!"!{key} = !{braced (commaSeparated (nodes.map MetadataNode.text))}\n"
  s!"; ModuleID = '{m.name}'\n" ++ triple ++ String.join globals ++ String.join funcs ++
    (if m.named.isEmpty then "" else "\n") ++ String.join named

end KernelIR
