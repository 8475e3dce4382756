import BootImage.Encoding.Form

/-!
# Encodings of control flow

A branch to a label holds the distance from its own end to the target, in one byte if it is
short and in a field as wide as the mode if it is near. A branch through a register or memory
operand holds no distance.
-/

namespace BootImage.Encoding

open scoped Powers

/-- The distance from an instruction of `length` bytes to its target, and zero while the target
is not known. -/
def branchDistance (cx : Context) (length : Nat) : Int :=
  cx.target.elim 0 (cx.counting.distance (cx.offset + length))

/-- The field of width `w` for a distance, which must fit as a signed number. -/
def distanceField (label : String) (w : Width) (distance : Int) :
    Except AssemblyError (List UInt8) :=
  let limit : Int := 2 ^ (w.bits - 1) - 1
  if -limit - 1 ≤ distance ∧ distance ≤ limit then .ok (LittleEndian.ofInt w.bytes distance)
  else .error (.branchOutOfRange label distance limit)

/-- A branch to a label with the opcode `near`, or `short` in a context that asks for the short
form, if there is one. -/
def branch (cx : Context) (label : String) (near : Opcode) (short : Option Nat) :
    Except AssemblyError Encoding :=
  let (opcode, width) := match cx.form, short with
    | .short, some byte => (Opcode.primary byte, Width.byte)
    | _, _ => (near, cx.mode.width)
  do
    let field ← distanceField label width (branchDistance cx (opcode.length + width.bytes))
    pure { opcode, immediate := field }

/-- A branch through a register or memory operand; `number` tells jumps from calls. -/
def indirect (i : Instruction) (cx : Context) (number : Nat) (op : Operand) :
    Except AssemblyError Encoding :=
  match op with
  | .register r => do
    let width ← i.generalWidth r
    if width = .byte then .error (i.invalid "branch target register must be 16/32-bit")
    else pure (onRegister width (.primary 0xFF) number r)
  | .memory m =>
    match m.size with
    | .word => onMemory cx (some .word) (.primary 0xFF) number m
    | .dword => onMemory cx (some .dword) (.primary 0xFF) number m
    | _ => .error (i.invalid "branch target memory must be word or dword")
  | _ => .error (i.invalid "expected a label, register, or memory operand")

/-- `jmp target`. -/
def jmp (i : Instruction) (cx : Context) : Except AssemblyError Encoding :=
  match i.operands with
  | [.label name] => branch cx name (.primary 0xE9) (some 0xEB)
  | [op] => indirect i cx 4 op
  | _ => .error (i.invalid "expected 1 operand")

/-- `call target`, which has no short form. -/
def call (i : Instruction) (cx : Context) : Except AssemblyError Encoding :=
  match i.operands with
  | [.label name] => branch cx name (.primary 0xE8) none
  | [op] => indirect i cx 2 op
  | _ => .error (i.invalid "expected 1 operand")

/-- A conditional jump. -/
def jcc (condition : Condition) (i : Instruction) (cx : Context) :
    Except AssemblyError Encoding :=
  match i.operands with
  | [.label name] =>
    branch cx name (.secondary (0x80 + condition.code)) (some (0x70 + condition.code))
  | _ => .error (i.invalid "expected a label operand")

/-- `ret`, alone or with the number of bytes to drop. -/
def ret (i : Instruction) : Except AssemblyError Encoding :=
  match i.operands with
  | [] => .ok { opcode := .primary 0xC3 }
  | [.immediate v] => do
    requireUnsigned .word v
    withImmediate { opcode := .primary 0xC2 } .word v
  | _ => .error (i.invalid "expected no operand or an imm16")

/-- `int vector`. -/
def int (i : Instruction) : Except AssemblyError Encoding :=
  match i.operands with
  | [.immediate v] => do
    requireUnsigned .byte v
    withImmediate { opcode := .primary 0xCD } .byte v
  | _ => .error (i.invalid "expected an imm8 vector")

end BootImage.Encoding
