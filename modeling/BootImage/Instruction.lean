import BootImage.Instruction.Mnemonic
import BootImage.Operand

/-!
# Machine instructions

A mnemonic with its operands, destination first. Any operands may be attached to any mnemonic;
the encoder decides which combinations exist.
-/

namespace BootImage

/-- A machine instruction. -/
structure Instruction where
  mnemonic : Mnemonic
  operands : List Operand
  deriving DecidableEq

/-- How a branch to a label is encoded. Branches start near and may be shortened. -/
inductive BranchForm where
  /-- A displacement of 16 or 32 bits, as the mode has it. -/
  | near
  /-- A displacement of 8 bits. -/
  | short
  deriving DecidableEq

namespace Instruction

/-- The label of an instruction whose only operand is a label. -/
def soleLabel? (i : Instruction) : Option String :=
  match i.operands with
  | [.label name] => some name
  | _ => none

/-- The label that a branch goes to. -/
def branchTarget? (i : Instruction) : Option String :=
  if i.mnemonic.isBranch then i.soleLabel? else none

/-- Whether this is a jump to a label, which has a short form. -/
def isShrinkable (i : Instruction) : Bool :=
  i.mnemonic.isJump && i.soleLabel?.isSome

/-- The label whose address an instruction other than a branch uses as a number. -/
def absoluteLabel? (i : Instruction) : Option String :=
  if i.mnemonic.isBranch then none else i.operands.findSome? Operand.label?

/-- The first memory operand. -/
def memory? (i : Instruction) : Option Memory :=
  i.operands.findSome? Operand.memory?

/-- The instruction in assembler notation. -/
def text (i : Instruction) : String :=
  match i.operands with
  | [] => i.mnemonic.name
  | ops => i.mnemonic.name ++ " " ++ ", ".intercalate (ops.map Operand.text)

/-- The error for operands that this instruction does not take. -/
def invalid (i : Instruction) (detail : String) : AssemblyError :=
  .invalidOperands i.mnemonic.name detail

end Instruction

end BootImage
