import KernelIR.ModuleM

/-!
# Inlining

The block of the call is split behind the call, the body of the callee is copied between the two
halves under fresh registers and labels, parameters become the arguments of the call, and every
return becomes a jump to the second half.  The result of the call becomes the one value that is
returned, or a phi over several.
-/

namespace KernelIR

def Func.mentionedLabels (f : Func) : List Label :=
  f.body.values.flatMap fun b => b.terminator.targets ++ b.phiLabels

/-- What a copy of a body is adapted to: its labels and registers are counted from the bases, and
returns lead to `continuation`. -/
structure Splice where
  callee : Func
  args : List Operand
  regBase : Reg
  labelBase : Label
  continuation : Label

namespace Splice

def reg (s : Splice) (r : Reg) : Reg := s.regBase + r

/-- Labels are numbered anew in the order of the blocks. -/
def label (s : Splice) (l : Label) : Label := s.labelBase + s.callee.body.keys.idxOf l

def operand (s : Splice) : Operand → Operand
  | .reg r => .reg (s.reg r)
  | .arg index => s.args[index]?.getD .undefined
  | op => op

def instr (s : Splice) (i : Instr) : Instr :=
  ((i.mapDest s.reg).mapOperands s.operand).mapPhiLabels s.label

def terminator (s : Splice) : Terminator → Terminator
  | .ret _ => .jump s.continuation
  | t => (t.mapOperands s.operand).mapTargets s.label

def block (s : Splice) (b : Block) : Block := ⟨b.instrs.map s.instr, s.terminator b.terminator⟩

def blocks (s : Splice) : List (Label × Block) :=
  s.callee.body.entries.map fun (l, b) => (s.label l, s.block b)

/-- The values that the copied blocks return, by block; a return without value leaves the result
undefined. -/
def returns (s : Splice) : List (Label × Operand) :=
  s.callee.body.entries.filterMap fun (l, b) =>
    match b.terminator with
    | .ret value => some (s.label l, (value.map s.operand).getD .undefined)
    | _ => none

end Splice

namespace Func

def insertBlocks (f : Func) (blocks : List (Label × Block)) : Func :=
  { f with body := blocks.foldl (fun body e => body.insert e.1 e.2) f.body }

def setTerminator (f : Func) (label : Label) (t : Terminator) : Func :=
  { f with body := f.body.modify label fun b => { b with terminator := t } }

def prependInstr (f : Func) (label : Label) (i : Instr) : Func :=
  { f with body := f.body.modify label fun b => { b with instrs := i :: b.instrs } }

/-- Gives a result the value that is returned, whichever of the returns is taken. -/
def bindResult (f : Func) (dest : Reg) (ty : Ty) (continuation : Label) :
    List (Label × Operand) → Func
  | [] => (f.replaceReads dest .undefined).2
  | [(_, value)] => (f.replaceReads dest value).2
  | returns => f.prependInstr continuation (.phi ⟨dest, ty, returns⟩)

end Func

namespace Inline

def target (m : Module) (site : CallSite) : Except Failure (Func × Call × Func) :=
  match m.funcs.get? site.caller with
  | none => .error (.illFormed (.undefinedFunction site.caller.text))
  | some caller =>
    match caller.callAt site.pos with
    | .error e => .error (.illFormed e)
    | .ok call =>
      match call.callee.resolve? with
      | none => .error (.notInlinable caller.name .indirect)
      | some id =>
        if id = site.caller then .error (.notInlinable caller.name .recursive)
        else
          match m.funcs.get? id with
          | none => .error (.notInlinable caller.name .unknownCallee)
          | some callee =>
            if callee.isDeclaration then .error (.notInlinable caller.name (.noBody callee.name))
            else if callee.params.length ≠ call.args.length then
              .error (.notInlinable caller.name
                (.arity callee.name callee.params.length call.args.length))
            else
              match callee.checkSSA with
              | .error e => .error (.illFormed e)
              | .ok _ =>
                match (Label.entry :: callee.mentionedLabels).find?
                    fun l => !callee.body.contains l with
                | some l => .error (.missingLabel l)
                | none => .ok (caller, call, callee)

/-- The caller with the call inlined, and the label of the second half of its block.  Registers are
counted from above the caller's, the result of the call included. -/
def splice (caller : Func) (call : Call) (callee : Func) (pos : Position) :
    Except IRError (Label × Func) :=
  match caller.splitBlock pos.label (pos.index + 1) with
  | .error e => .error e
  | .ok (continuation, split) =>
    match split.removeInstr pos with
    | .error e => .error e
    | .ok (_, opened) =>
      let s : Splice := ⟨callee, call.args, caller.nextReg, opened.nextLabel, continuation⟩
      let joined := (opened.insertBlocks s.blocks).setTerminator pos.label
        (.jump (s.label .entry))
      match call.dest with
      | none => .ok (continuation, joined)
      | some dest => .ok (continuation, joined.bindResult dest call.ty continuation s.returns)

end Inline

/-- Inlines the call at a site and answers the label of the block that follows it. -/
def Module.inlineAt (m : Module) (site : CallSite) : Except Failure (Label × Module) :=
  match Inline.target m site with
  | .error e => .error e
  | .ok (caller, call, callee) =>
    match Inline.splice caller call callee site.pos with
    | .error e => .error (.illFormed e)
    | .ok (continuation, f) => .ok (continuation, m.setFunc site.caller f)

end KernelIR
