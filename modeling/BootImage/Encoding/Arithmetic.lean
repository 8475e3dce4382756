import BootImage.Encoding.Form

/-!
# Encodings of arithmetic and logic

The eight operations of the arithmetic group, `test`, the one-operand group, signed
multiplication, steps by one, shifts, and byte sets. A constant that a signed byte holds takes a
one-byte field where the operation has a sign-extending form, and the accumulator has shorter
opcodes of its own.
-/

namespace BootImage.Encoding

/-- An arithmetic operation on a register and a number. -/
def arithmeticConstant (op : ArithmeticOp) (dst : Register) (width : Width) (imm : Immediate) :
    Except AssemblyError Encoding :=
  let n := op.number
  if width = .byte then
    if dst = .al then withImmediate { width, opcode := .primary (n * 8 + 4) } .byte imm.value
    else (onRegister width (.primary 0x80) n dst).withImmediate .byte imm.value
  else if imm.isShort then (onRegister width (.primary 0x83) n dst).withImmediate .byte imm.value
  else if dst.code = 0 then
    withImmediate { width, opcode := .primary (n * 8 + 5) } width imm.value
  else (onRegister width (.primary 0x81) n dst).withImmediate width imm.value

/-- `add`, `or`, `adc`, `sbb`, `and`, `sub`, `xor` and `cmp`. -/
def arithmetic (op : ArithmeticOp) (i : Instruction) (cx : Context) :
    Except AssemblyError Encoding :=
  let n := op.number
  match i.arguments cx with
  | [.register dst, .register src] => onPair i (.primary (n * 8 + dst.width.opcodeBit)) dst src
  | [.register dst, .memory m] => do
    let width ← i.generalWidth dst
    onMemory cx width (.primary (n * 8 + 2 + width.opcodeBit)) dst.code m
  | [.memory m, .register src] => do
    let width ← i.generalWidth src
    onMemory cx width (.primary (n * 8 + width.opcodeBit)) src.code m
  | [.register dst, .immediate imm] => do
    let width ← i.generalWidth dst
    arithmeticConstant op dst width imm
  | [.memory m, .immediate imm] => do
    let width ← i.memoryWidth m
    if width = .byte then
      let e ← onMemory cx width (.primary 0x80) n m
      e.withImmediate .byte imm.value
    else if imm.isShort then
      let e ← onMemory cx width (.primary 0x83) n m
      e.withImmediate .byte imm.value
    else
      let e ← onMemory cx width (.primary 0x81) n m
      e.withImmediate width imm.value
  | [_, _] => .error (i.invalid "unsupported operand combination")
  | _ => .error (i.invalid "expected 2 operands")

/-- `test a, b`. -/
def test (i : Instruction) (cx : Context) : Except AssemblyError Encoding :=
  match i.arguments cx with
  | [.register dst, .register src] => onPair i (.primary (0x84 + dst.width.opcodeBit)) dst src
  | [.memory m, .register r] | [.register r, .memory m] => do
    let width ← i.generalWidth r
    onMemory cx width (.primary (0x84 + width.opcodeBit)) r.code m
  | [.register dst, .immediate imm] => do
    let width ← i.generalWidth dst
    if dst.code = 0 then
      withImmediate { width, opcode := .primary (0xA8 + width.opcodeBit) } width imm.value
    else (onRegister width (.primary (0xF6 + width.opcodeBit)) 0 dst).withImmediate width imm.value
  | [.memory m, .immediate imm] => do
    let width ← i.memoryWidth m
    let e ← onMemory cx width (.primary (0xF6 + width.opcodeBit)) 0 m
    e.withImmediate width imm.value
  | [_, _] => .error (i.invalid "unsupported operand combination")
  | _ => .error (i.invalid "expected 2 operands")

/-- The one-operand group: `number` is the operation's number in it. -/
def unary (number : Nat) (i : Instruction) (cx : Context) : Except AssemblyError Encoding :=
  match i.operands with
  | [.register r] => do
    let width ← i.generalWidth r
    pure (onRegister width (.primary (0xF6 + width.opcodeBit)) number r)
  | [.memory m] => do
    let width ← i.memoryWidth m
    onMemory cx width (.primary (0xF6 + width.opcodeBit)) number m
  | _ => .error (i.invalid "expected one register or memory operand")

/-- The width of the destination of a multiplication into a register. -/
def imulWidth (i : Instruction) (dst : Register) : Except AssemblyError Width := do
  let width ← i.generalWidth dst
  if width = .byte then .error (i.invalid "destination must be 16/32-bit") else pure width

/-- `imul` with one, two or three operands. -/
def imul (i : Instruction) (cx : Context) : Except AssemblyError Encoding :=
  match i.operands with
  | [_] => unary 5 i cx
  | [.register dst, src] => do
    let width ← imulWidth i dst
    match src with
    | .register r => onPair i (.secondary 0xAF) r dst
    | .memory m => onMemory cx width (.secondary 0xAF) dst.code m
    | _ => .error (i.invalid "source must be a register or memory")
  | [.register dst, src, .immediate v] => do
    let width ← imulWidth i dst
    let short := Immediate.isShort { value := v }
    let opcode := Opcode.primary (if short then 0x6B else 0x69)
    let e ← match src with
      | .register r => onPair i opcode r dst
      | .memory m => onMemory cx width opcode dst.code m
      | _ => .error (i.invalid "source must be a register or memory")
    e.withImmediate (if short then .byte else width) v
  | _ => .error (i.invalid "unsupported operand combination")

/-- `inc` and `dec`: full-size registers have one-byte opcodes. -/
def step (op : StepOp) (i : Instruction) (cx : Context) : Except AssemblyError Encoding :=
  match i.operands with
  | [.register r] => do
    let width ← i.generalWidth r
    if width = .byte then pure (onRegister width (.primary 0xFE) op.number r)
    else pure { width, opcode := .primary (0x40 + op.number * 8 + r.code) }
  | [.memory m] => do
    let width ← i.memoryWidth m
    onMemory cx width (.primary (0xFE + width.opcodeBit)) op.number m
  | _ => .error (i.invalid "expected one register or memory operand")

/-- How far a shift goes: by one, by a constant, or by the register `cl`. The number is the
opcode for a byte operand, and the constant is what follows. -/
def shiftCount (i : Instruction) : Operand → Except AssemblyError (Nat × Option Int)
  | .register .cl => .ok (0xD2, none)
  | .immediate v => do
    if v = 1 then pure (0xD0, none)
    else
      requireUnsigned .byte v
      pure (0xC0, some v)
  | _ => .error (i.invalid "shift count must be CL or an immediate")

/-- The shifts and rotations. -/
def shift (op : ShiftOp) (i : Instruction) (cx : Context) : Except AssemblyError Encoding :=
  match i.operands with
  | [dst, count] => do
    let width ← match dst with
      | .register r => i.generalWidth r
      | .memory m => i.memoryWidth m
      | _ => .error (i.invalid "destination must be a register or memory")
    let (byteOpcode, constant) ← shiftCount i count
    let opcode := Opcode.primary (byteOpcode + width.opcodeBit)
    let e ← match dst with
      | .register r => pure (onRegister width opcode op.number r)
      | .memory m => onMemory cx width opcode op.number m
      | _ => .error (i.invalid "destination must be a register or memory")
    match constant with
    | none => pure e
    | some v => e.withImmediate .byte v
  | _ => .error (i.invalid "expected 2 operands")

/-- `setcc`: a byte register or byte memory operand becomes zero or one. -/
def setcc (condition : Condition) (i : Instruction) (cx : Context) :
    Except AssemblyError Encoding :=
  let opcode := Opcode.secondary (0x90 + condition.code)
  let refused := Except.error (i.invalid "expected an 8-bit register or byte memory operand")
  match i.operands with
  | [.register r] => if r.width = .byte then .ok (onRegister r.width opcode 0 r) else refused
  | [.memory m] => if m.size = .byte then onMemory cx (some .byte) opcode 0 m else refused
  | _ => refused

end BootImage.Encoding
