import BootImage.Encoding.Arithmetic
import BootImage.Encoding.Branch
import BootImage.Encoding.Move
import BootImage.Encoding.Stack
import BootImage.Encoding.System
import BootImage.Entry

/-!
# Encoding of instructions

`Instruction.encoding` gives the parts of an instruction in a context, `Instruction.encode` its
bytes. The length of a stream entry is found in the same way, with no label resolved.
-/

namespace BootImage

namespace Instruction

/-- The parts of the instruction as encoded in the given context. -/
def encoding (i : Instruction) (cx : Context) : Except AssemblyError Encoding :=
  match i.mnemonic with
  | .mov => Encoding.mov i cx
  | .movzx => Encoding.movExtending 0xB6 i cx
  | .movsx => Encoding.movExtending 0xBE i cx
  | .lea => Encoding.lea i cx
  | .xchg => Encoding.xchg i cx
  | .arithmetic op => Encoding.arithmetic op i cx
  | .test => Encoding.test i cx
  | .unary op => Encoding.unary op.number i cx
  | .imul => Encoding.imul i cx
  | .step op => Encoding.step op i cx
  | .shift op => Encoding.shift op i cx
  | .push => Encoding.push i cx
  | .pop => Encoding.pop i cx
  | .call => Encoding.call i cx
  | .ret => Encoding.ret i
  | .jmp => Encoding.jmp i cx
  | .jcc condition => Encoding.jcc condition i cx
  | .setcc condition => Encoding.setcc condition i cx
  | .input => Encoding.input i
  | .output => Encoding.output i
  | .int => Encoding.int i
  | .table op => Encoding.table op i cx
  | .plain op => Encoding.plain op i

/-- The bytes of the instruction in the given context. -/
def encode (i : Instruction) (cx : Context) : Except AssemblyError (List UInt8) := do
  let e ← i.encoding cx
  pure (e.bytes cx.mode)

/-- The number of bytes the instruction takes in the given mode, with a branch in the given
form. -/
def length (i : Instruction) (mode : Mode) (form : BranchForm) : Except AssemblyError Nat := do
  let bytes ← i.encode (.sizing mode form)
  pure bytes.length

end Instruction

namespace Entry

/-- The number of bytes the entry takes in the given mode, with a branch in the given form.
Alignment and offset markers depend on where they stand and count as zero here. -/
def length (e : Entry) (mode : Mode) (form : BranchForm) : Except AssemblyError Nat :=
  match e with
  | .times n _ => .ok n.toNat
  | .data _ value => .ok value.length
  | .instruction i => i.length mode form
  | _ => .ok 0

/-- Whether the length of the entry differs between the modes. -/
def lengthDependsOnMode (e : Entry) : Except AssemblyError Bool := do
  let long ← e.length .bits32 .near
  let short ← e.length .bits16 .near
  pure (long != short)

end Entry

end BootImage
