import BootImage.Encoding.Form

/-!
# Encodings of I/O and system instructions

Input and output move the accumulator; the I/O address is a byte or the register `dx`. Loads of a
descriptor table take a memory operand of any size. The remaining instructions have no operands.
-/

namespace BootImage.Encoding

/-- The width of the accumulator, the only register that input goes to and output
comes from. -/
def accumulatorWidth (i : Instruction) : Register → Except AssemblyError Width
  | .general w 0 => .ok w
  | _ => .error (i.invalid "data operand must be al, ax, or eax")

/-- The encoding of a transfer by its I/O address: `opcode` serves a number, and the opcode eight
above it the register `dx`. -/
def transfer (i : Instruction) (width : Width) (opcode : Nat) : Operand →
    Except AssemblyError Encoding
  | .immediate v => do
    requireUnsigned .byte v
    withImmediate { width, opcode := .primary (opcode + width.opcodeBit) } .byte v
  | .register .dx => .ok { width, opcode := .primary (opcode + 8 + width.opcodeBit) }
  | _ => .error (i.invalid "port must be an imm8 or dx")

/-- `in accumulator, address`. -/
def input (i : Instruction) : Except AssemblyError Encoding :=
  match i.operands with
  | [.register accumulator, op] => do
    let width ← accumulatorWidth i accumulator
    transfer i width 0xE4 op
  | _ => .error (i.invalid "expected accumulator, port")

/-- `out address, accumulator`. -/
def output (i : Instruction) : Except AssemblyError Encoding :=
  match i.operands with
  | [op, .register accumulator] => do
    let width ← accumulatorWidth i accumulator
    transfer i width 0xE6 op
  | _ => .error (i.invalid "expected port, accumulator")

/-- `lgdt` and `lidt`. -/
def table (op : TableOp) (i : Instruction) (cx : Context) : Except AssemblyError Encoding :=
  match i.operands with
  | [.memory m] => onMemory cx none (.secondary 0x01) op.number m
  | _ => .error (i.invalid "expected a memory operand")

/-- The opcode of an instruction without operands. -/
def plainOpcode : PlainOp → Nat
  | .nop => 0x90
  | .hlt => 0xF4
  | .cli => 0xFA
  | .sti => 0xFB
  | .cld => 0xFC
  | .std => 0xFD
  | .iretd => 0xCF
  | .pushad => 0x60
  | .popad => 0x61
  | .pushfd => 0x9C
  | .popfd => 0x9D
  | .cdq => 0x99
  | .leave => 0xC9
  | .int3 => 0xCC

/-- The width of an instruction without operands, where the opcode has a 16-bit reading too. -/
def plainWidth : PlainOp → Option Width
  | .iretd | .pushad | .popad | .pushfd | .popfd | .cdq => some .dword
  | .nop | .hlt | .cli | .sti | .cld | .std | .leave | .int3 => none

/-- An instruction without operands. -/
def plain (op : PlainOp) (i : Instruction) : Except AssemblyError Encoding :=
  match i.operands with
  | [] => .ok { width := plainWidth op, opcode := .primary (plainOpcode op) }
  | _ => .error (i.invalid "expected no operands")

end BootImage.Encoding
