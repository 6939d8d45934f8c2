import KernelIR.Func

/-!
# Edits of one function

Each edit answers the edited function, so that a failing edit changes nothing.
-/

namespace KernelIR.Func

/-- Reads `value` wherever `r` was read, and counts the operands that change. -/
def replaceReads (f : Func) (r : Reg) (value : Operand) : Nat × Func :=
  ((f.body.values.flatMap Block.operands).countP (· == .reg r),
    f.mapBlocks (Block.mapOperands (Operand.replaceReg r value)))

def removeInstr (f : Func) (pos : Position) : Except IRError (Instr × Func) :=
  match f.body.find? pos.label with
  | none => .error (.undefinedBlock f.name pos.label)
  | some b =>
    match b.instrs[pos.index]? with
    | none => .error (.undefinedInstr f.name pos)
    | some i =>
      .ok (i, { f with
        body := f.body.insert pos.label { b with instrs := b.instrs.eraseIdx pos.index } })

/-- Inserts before the instruction at `pos`; an index equal to the length of the block appends. -/
def insertInstr (f : Func) (pos : Position) (i : Instr) : Except IRError Func :=
  match f.body.find? pos.label with
  | none => .error (.undefinedBlock f.name pos.label)
  | some b =>
    if pos.index ≤ b.instrs.length then
      .ok { f with
        body := f.body.insert pos.label { b with instrs := b.instrs.insertIdx pos.index i } }
    else .error (.undefinedInstr f.name pos)

def setInstr (f : Func) (pos : Position) (i : Instr) : Func :=
  { f with
    body := f.body.modify pos.label fun b => { b with instrs := b.instrs.set pos.index i } }

def relabel (old new label : Label) : Label := if label = old then new else label

/--
Splits a block before the instruction number `index`.  The tail moves to the block `fresh`, the head
jumps there, and the phis of the blocks that the tail leads to name that block.
-/
def splitBlockAt (f : Func) (fresh label : Label) (index : Nat) : Except IRError (Label × Func) :=
  match f.body.find? label with
  | none => .error (.undefinedBlock f.name label)
  | some b =>
    if index ≤ b.instrs.length then
      let body := (f.body.insert label ⟨b.instrs.take index, .jump fresh⟩).insert fresh
        ⟨b.instrs.drop index, b.terminator⟩
      .ok (fresh, { f with
        body := body.mapWithKey fun l block =>
          if l ∈ b.terminator.targets then block.mapPhiLabels (relabel label fresh) else block })
    else .error (.undefinedInstr f.name ⟨label, index⟩)

/-- Splits a block so that its tail moves to a new block. -/
def splitBlock (f : Func) (label : Label) (index : Nat) : Except IRError (Label × Func) :=
  f.splitBlockAt f.nextLabel label index

end KernelIR.Func
