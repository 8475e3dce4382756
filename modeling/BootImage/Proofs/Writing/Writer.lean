import BootImage.Encoding.Buffer
import BootImage.Encoding.Instruction

/-!
# Writing instructions byte by byte

An instruction can be put into a buffer piece by piece, as its parts become known: overrides,
opcode, addressing bytes and a field. A check that comes late then refuses the instruction with
bytes of it in the buffer already. Besides being refused, writing can go wrong in two ways: the
buffer can be full, and a number put together from parts, such as an opcode with a register in it,
can be too large for the byte that holds it.

* `WriteFault`, `Writer` — how writing can end, and a step of it.
* `Writer.onMemory`, `Writer.onRegister`, … — the forms that instructions share.
* `Writer.mov`, `Writer.arithmetic`, … — one writer for each encoder.
* `Instruction.write` — an instruction in a buffer of its own.
-/

namespace BootImage

/-- Why writing an instruction stops. -/
inductive WriteFault where
  | refused (err : AssemblyError)
  | overflow (overflow : InstructionBuffer.Overflow)
  /-- A number that a byte does not hold. -/
  | carry (number : Nat)

/-- A step that writes to a buffer. -/
abbrev Writer := StateT InstructionBuffer (Except WriteFault)

namespace Writer

variable {α : Type}

/-! ## Steps -/

/-- Goes on with the value, unless there is none. -/
def check (x : Except AssemblyError α) : Writer α := fun buffer =>
  match x with
  | .ok a => .ok (a, buffer)
  | .error err => .error (.refused err)

/-- The byte for a number that was put together from smaller ones. No part is larger than the
whole, so none of them carries either if it does not. -/
def narrow (number : Nat) : Writer UInt8 := fun buffer =>
  if number < 256 then .ok (UInt8.ofNat number, buffer) else .error (.carry number)

/-- Writes a byte. -/
def byte (b : UInt8) : Writer Unit := fun buffer =>
  match buffer.push b with
  | .ok buffer => .ok ((), buffer)
  | .error overflow => .error (.overflow overflow)

/-- Writes a run of bytes. -/
def bytes (bs : List UInt8) : Writer Unit := fun buffer =>
  match buffer.append bs with
  | .ok buffer => .ok ((), buffer)
  | .error overflow => .error (.overflow overflow)

/-- Writes a number as a byte. -/
def number (n : Nat) : Writer Unit := do
  byte (← narrow n)

/-- Writes a field of width `w` for `v`. -/
def field (w : Width) (v : Int) : Writer Unit := do
  bytes (← check (w.field v))

/-! ## Overrides and opcodes -/

/-- Writes the segment override, if there is one. -/
def segmentOverride : Option Segment → Writer Unit
  | none => pure ()
  | some s => byte s.overrideByte

/-- Writes the address-size override for an address of the given size, if the mode needs it. -/
def addressOverride (mode size : Mode) : Writer Unit :=
  if size ≠ mode then byte 0x67 else pure ()

/-- Writes the operand-size override for the given width, if the mode needs it. -/
def operandOverride (mode : Mode) (width : Option Width) : Writer Unit :=
  if width.any (·.needsOverride mode) then byte 0x66 else pure ()

/-- Writes an opcode; one of two bytes is written at once. -/
def opcode : Opcode → Writer Unit
  | .primary n => number n
  | .secondary n => do bytes [0x0F, ← narrow n]

/-! ## Addressing bytes -/

def modrm (mod reg rm : Nat) : Writer Unit :=
  number (mod * 64 + reg * 8 + rm)

def sib (shift index base : Nat) : Writer Unit :=
  number (shift * 64 + index * 8 + base)

/-- The `mod` field in front of a displacement. -/
def displacementMod (mayOmit : Bool) (disp : Immediate) : Nat :=
  if !disp.symbolic && disp.value == 0 && mayOmit then 0 else if disp.isShort then 1 else 2

/-- Writes the displacement that a `mod` field announces. -/
def displacement (size : Width) (mod : Nat) (disp : Immediate) : Writer Unit :=
  match mod with
  | 0 => pure ()
  | 1 => bytes (LittleEndian.ofInt 1 disp.value)
  | _ => field size disp.value

/-- Writes ModR/M and, if there is an index or the base is `esp`, SIB for a 32-bit address with a
base. -/
def based32 (scale mod reg : Nat) (base : Register) (index : Option Register) : Writer Unit :=
  if index.isSome || base.code == 4 then do
    modrm mod reg 4
    sib (scaleShift scale) (index.elim 4 Register.code) base.code
  else modrm mod reg base.code

/-- Writes the addressing bytes of a 32-bit address. -/
def address32 (m : Memory) (disp : Immediate) (reg : Nat) : Writer Unit :=
  if m.index = some .esp then
    check (.error (.unsupported s!"'{m.text}' (esp cannot be an index)"))
  else
    match m.base, m.index with
    | none, none => do
      modrm 0 reg 5
      field .dword disp.value
    | none, some index => do
      modrm 0 reg 4
      sib (scaleShift m.scale) index.code 5
      field .dword disp.value
    | some base, index => do
      let mod := displacementMod (base.code != 5) disp
      based32 m.scale mod reg base index
      displacement .dword mod disp

/-- Writes the addressing bytes of a 16-bit address. -/
def address16 (m : Memory) (disp : Immediate) (reg : Nat) : Writer Unit :=
  if m.index.isSome ∧ m.scale ≠ 1 then
    check (.error (.unsupported s!"scaled index in 16-bit address '{m.text}'"))
  else if m.base = none ∧ m.index = none then do
    modrm 0 reg 6
    field .word disp.value
  else
    match Memory.registers16? m.base m.index with
    | none => check (.error (.unsupported s!"register combination in 16-bit address '{m.text}'"))
    | some rm => do
      let mod := displacementMod (rm != 6) disp
      modrm mod reg rm
      displacement .word mod disp

/-- Writes the addressing bytes of a memory operand. -/
def address (m : Memory) (cx : Context) (reg : Nat) : Writer Unit :=
  if m.index.isSome ∧ m.scale ∉ [1, 2, 4, 8] then
    check (.error (.unsupported s!"scale {m.scale} in '{m.text}'"))
  else do
    match ← check (m.addressSize cx.mode) with
    | .bits32 => address32 m (m.displacementValue cx.symbol) reg
    | .bits16 => address16 m (m.displacementValue cx.symbol) reg

/-! ## Shared forms -/

/-- An opcode alone. -/
def bare (cx : Context) (width : Option Width) (o : Opcode) : Writer Unit := do
  operandOverride cx.mode width
  opcode o

/-- An opcode with a register operand. -/
def onRegister (cx : Context) (width : Option Width) (o : Opcode) (reg : Nat) (rm : Register) :
    Writer Unit := do
  operandOverride cx.mode width
  opcode o
  modrm 3 reg rm.code

/-- An opcode with a memory operand. Each override is written as soon as it is known. -/
def onMemory (cx : Context) (width : Option Width) (o : Opcode) (reg : Nat) (m : Memory) :
    Writer Unit := do
  segmentOverride (← check m.segmentOverride)
  addressOverride cx.mode (← check (m.addressSize cx.mode))
  operandOverride cx.mode width
  opcode o
  address m cx reg

/-- An opcode with two general-purpose registers of one width. -/
def onPair (i : Instruction) (cx : Context) (o : Opcode) (rm reg : Register) : Writer Unit := do
  let width ← check (i.generalWidth rm)
  let width' ← check (i.generalWidth reg)
  if width' = width then onRegister cx width o reg.code rm
  else check (.error (i.invalid "operand sizes do not match"))

/-! ## Data movement -/

def movRegisters (i : Instruction) (cx : Context) (dst src : Register) : Writer Unit :=
  if dst.isSegment then
    if src.width = .byte ∨ src.isSegment then
      check (.error (i.invalid "segment register source must be a 16/32-bit register"))
    else onRegister cx none (.primary 0x8E) dst.code src
  else if src.isSegment then
    if dst.width = .byte then
      check (.error (i.invalid "segment register destination must be 16/32-bit"))
    else onRegister cx dst.width (.primary 0x8C) src.code dst
  else onPair i cx (.primary (0x88 + dst.width.opcodeBit)) dst src

def mov (i : Instruction) (cx : Context) : Writer Unit :=
  match i.arguments cx with
  | [.register dst, .register src] => movRegisters i cx dst src
  | [.register dst, .memory m] =>
    if dst.isSegment then onMemory cx none (.primary 0x8E) dst.code m
    else onMemory cx dst.width (.primary (0x8A + dst.width.opcodeBit)) dst.code m
  | [.memory m, .register src] =>
    if src.isSegment then onMemory cx none (.primary 0x8C) src.code m
    else onMemory cx src.width (.primary (0x88 + src.width.opcodeBit)) src.code m
  | [.register dst, .immediate imm] => do
    let width ← check (i.generalWidth dst)
    bare cx width (.primary ((if width = .byte then 0xB0 else 0xB8) + dst.code))
    field width imm.value
  | [.memory m, .immediate imm] => do
    let width ← check (i.memoryWidth m)
    onMemory cx width (.primary (0xC6 + width.opcodeBit)) 0 m
    field width imm.value
  | [_, _] => check (.error (i.invalid "unsupported operand combination"))
  | _ => check (.error (i.invalid "expected 2 operands"))

def movExtending (byteOpcode : Nat) (i : Instruction) (cx : Context) : Writer Unit :=
  match i.operands with
  | [.register dst, .register src] => do
    let width ← check (i.generalWidth dst)
    let source ← check (i.generalWidth src)
    if source.bits < width.bits then
      onRegister cx width (.secondary (byteOpcode + source.opcodeBit)) dst.code src
    else check (.error (i.invalid "source must be narrower than the destination"))
  | [.register dst, .memory m] => do
    let width ← check (i.generalWidth dst)
    let source ← check (i.memoryWidth m)
    if source.bits < width.bits then
      onMemory cx width (.secondary (byteOpcode + source.opcodeBit)) dst.code m
    else check (.error (i.invalid "source must be narrower than the destination"))
  | [.register dst, _] => do
    let _ ← check (i.generalWidth dst)
    check (.error (i.invalid "source must be a register or memory"))
  | _ => check (.error (i.invalid "expected a register destination and a source"))

def lea (i : Instruction) (cx : Context) : Writer Unit :=
  match i.operands with
  | [.register dst, .memory m] => do
    let width ← check (i.generalWidth dst)
    if width = .byte then check (.error (i.invalid "destination must be 16/32-bit"))
    else onMemory cx width (.primary 0x8D) dst.code m
  | _ => check (.error (i.invalid "expected register, memory"))

def xchg (i : Instruction) (cx : Context) : Writer Unit :=
  match i.operands with
  | [.register a, .register b] => do
    let width ← check (i.generalWidth a)
    let width' ← check (i.generalWidth b)
    if width' ≠ width then check (.error (i.invalid "operand sizes do not match"))
    else if width ≠ .byte ∧ (a.code = 0 ∨ b.code = 0) then
      bare cx width (.primary (0x90 + (if a.code = 0 then b else a).code))
    else onRegister cx width (.primary (0x86 + width.opcodeBit)) b.code a
  | [.register r, .memory m] | [.memory m, .register r] => do
    let width ← check (i.generalWidth r)
    onMemory cx width (.primary (0x86 + width.opcodeBit)) r.code m
  | [_, _] => check (.error (i.invalid "unsupported operand combination"))
  | _ => check (.error (i.invalid "expected 2 operands"))

/-! ## Arithmetic and logic -/

def arithmeticConstant (op : ArithmeticOp) (cx : Context) (dst : Register) (width : Width)
    (imm : Immediate) : Writer Unit :=
  let n := op.number
  if width = .byte then
    if dst = .al then do
      bare cx width (.primary (n * 8 + 4))
      field .byte imm.value
    else do
      onRegister cx width (.primary 0x80) n dst
      field .byte imm.value
  else if imm.isShort then do
    onRegister cx width (.primary 0x83) n dst
    field .byte imm.value
  else if dst.code = 0 then do
    bare cx width (.primary (n * 8 + 5))
    field width imm.value
  else do
    onRegister cx width (.primary 0x81) n dst
    field width imm.value

def arithmetic (op : ArithmeticOp) (i : Instruction) (cx : Context) : Writer Unit :=
  let n := op.number
  match i.arguments cx with
  | [.register dst, .register src] => onPair i cx (.primary (n * 8 + dst.width.opcodeBit)) dst src
  | [.register dst, .memory m] => do
    let width ← check (i.generalWidth dst)
    onMemory cx width (.primary (n * 8 + 2 + width.opcodeBit)) dst.code m
  | [.memory m, .register src] => do
    let width ← check (i.generalWidth src)
    onMemory cx width (.primary (n * 8 + width.opcodeBit)) src.code m
  | [.register dst, .immediate imm] => do
    let width ← check (i.generalWidth dst)
    arithmeticConstant op cx dst width imm
  | [.memory m, .immediate imm] => do
    let width ← check (i.memoryWidth m)
    if width = .byte then
      onMemory cx width (.primary 0x80) n m
      field .byte imm.value
    else if imm.isShort then
      onMemory cx width (.primary 0x83) n m
      field .byte imm.value
    else
      onMemory cx width (.primary 0x81) n m
      field width imm.value
  | [_, _] => check (.error (i.invalid "unsupported operand combination"))
  | _ => check (.error (i.invalid "expected 2 operands"))

def test (i : Instruction) (cx : Context) : Writer Unit :=
  match i.arguments cx with
  | [.register dst, .register src] => onPair i cx (.primary (0x84 + dst.width.opcodeBit)) dst src
  | [.memory m, .register r] | [.register r, .memory m] => do
    let width ← check (i.generalWidth r)
    onMemory cx width (.primary (0x84 + width.opcodeBit)) r.code m
  | [.register dst, .immediate imm] => do
    let width ← check (i.generalWidth dst)
    if dst.code = 0 then
      bare cx width (.primary (0xA8 + width.opcodeBit))
      field width imm.value
    else
      onRegister cx width (.primary (0xF6 + width.opcodeBit)) 0 dst
      field width imm.value
  | [.memory m, .immediate imm] => do
    let width ← check (i.memoryWidth m)
    onMemory cx width (.primary (0xF6 + width.opcodeBit)) 0 m
    field width imm.value
  | [_, _] => check (.error (i.invalid "unsupported operand combination"))
  | _ => check (.error (i.invalid "expected 2 operands"))

def unary (digit : Nat) (i : Instruction) (cx : Context) : Writer Unit :=
  match i.operands with
  | [.register r] => do
    let width ← check (i.generalWidth r)
    onRegister cx width (.primary (0xF6 + width.opcodeBit)) digit r
  | [.memory m] => do
    let width ← check (i.memoryWidth m)
    onMemory cx width (.primary (0xF6 + width.opcodeBit)) digit m
  | _ => check (.error (i.invalid "expected one register or memory operand"))

def imul (i : Instruction) (cx : Context) : Writer Unit :=
  match i.operands with
  | [_] => unary 5 i cx
  | [.register dst, src] => do
    let width ← check (Encoding.imulWidth i dst)
    match src with
    | .register r => onPair i cx (.secondary 0xAF) r dst
    | .memory m => onMemory cx width (.secondary 0xAF) dst.code m
    | _ => check (.error (i.invalid "source must be a register or memory"))
  | [.register dst, src, .immediate v] => do
    let width ← check (Encoding.imulWidth i dst)
    let short := Immediate.isShort { value := v }
    let o := Opcode.primary (if short then 0x6B else 0x69)
    match src with
    | .register r =>
      onPair i cx o r dst
      field (if short then .byte else width) v
    | .memory m =>
      onMemory cx width o dst.code m
      field (if short then .byte else width) v
    | _ => check (.error (i.invalid "source must be a register or memory"))
  | _ => check (.error (i.invalid "unsupported operand combination"))

def step (op : StepOp) (i : Instruction) (cx : Context) : Writer Unit :=
  match i.operands with
  | [.register r] => do
    let width ← check (i.generalWidth r)
    if width = .byte then onRegister cx width (.primary 0xFE) op.number r
    else bare cx width (.primary (0x40 + op.number * 8 + r.code))
  | [.memory m] => do
    let width ← check (i.memoryWidth m)
    onMemory cx width (.primary (0xFE + width.opcodeBit)) op.number m
  | _ => check (.error (i.invalid "expected one register or memory operand"))

/-- The constant that a shift goes by, if there is one. -/
def shiftConstant : Option Int → Writer Unit
  | none => pure ()
  | some v => field .byte v

def shift (op : ShiftOp) (i : Instruction) (cx : Context) : Writer Unit :=
  match i.operands with
  | [.register r, count] => do
    let width ← check (i.generalWidth r)
    let (byteOpcode, constant) ← check (Encoding.shiftCount i count)
    onRegister cx width (.primary (byteOpcode + width.opcodeBit)) op.number r
    shiftConstant constant
  | [.memory m, count] => do
    let width ← check (i.memoryWidth m)
    let (byteOpcode, constant) ← check (Encoding.shiftCount i count)
    onMemory cx width (.primary (byteOpcode + width.opcodeBit)) op.number m
    shiftConstant constant
  | [_, _] => check (.error (i.invalid "destination must be a register or memory"))
  | _ => check (.error (i.invalid "expected 2 operands"))

def setcc (condition : Condition) (i : Instruction) (cx : Context) : Writer Unit :=
  let o := Opcode.secondary (0x90 + condition.code)
  let refused := check (.error (i.invalid "expected an 8-bit register or byte memory operand"))
  match i.operands with
  | [.register r] => if r.width = .byte then onRegister cx r.width o 0 r else refused
  | [.memory m] => if m.size = .byte then onMemory cx (some .byte) o 0 m else refused
  | _ => refused

/-! ## Stack -/

def push (i : Instruction) (cx : Context) : Writer Unit :=
  match i.arguments cx with
  | [.register (.segment s)] => opcode (Encoding.pushSegment s)
  | [.register (.general width n)] =>
    if width = .byte then check (.error (i.invalid "cannot push an 8-bit register"))
    else bare cx width (.primary (0x50 + n.val))
  | [.memory m] => do
    let width ← check (i.memoryWidth m)
    if width = .byte then check (.error (i.invalid "cannot push a byte operand"))
    else onMemory cx width (.primary 0xFF) 6 m
  | [.immediate imm] =>
    if imm.isShort then do
      opcode (.primary 0x6A)
      field .byte imm.value
    else do
      opcode (.primary 0x68)
      field cx.mode.width imm.value
  | _ => check (.error (i.invalid "expected 1 operand"))

def pop (i : Instruction) (cx : Context) : Writer Unit :=
  match i.operands with
  | [.register (.segment s)] =>
    match Encoding.popSegment? s with
    | some o => opcode o
    | none => check (.error (i.invalid "cannot pop into cs"))
  | [.register (.general width n)] =>
    if width = .byte then check (.error (i.invalid "cannot pop an 8-bit register"))
    else bare cx width (.primary (0x58 + n.val))
  | [.memory m] => do
    let width ← check (i.memoryWidth m)
    if width = .byte then check (.error (i.invalid "cannot pop a byte operand"))
    else onMemory cx width (.primary 0x8F) 0 m
  | _ => check (.error (i.invalid "expected one register or memory operand"))

/-! ## Control flow -/

/-- A branch to a label. Its distance is checked before anything of it is written. -/
def branch (cx : Context) (label : String) (near : Opcode) (short : Option Nat) : Writer Unit :=
  let (o, width) := match cx.form, short with
    | .short, some byte => (Opcode.primary byte, Width.byte)
    | _, _ => (near, cx.mode.width)
  do
    let distance ← check
      (Encoding.distanceField label width (Encoding.branchDistance cx (o.length + width.bytes)))
    opcode o
    bytes distance

def indirect (i : Instruction) (cx : Context) (digit : Nat) (op : Operand) : Writer Unit :=
  match op with
  | .register r => do
    let width ← check (i.generalWidth r)
    if width = .byte then check (.error (i.invalid "branch target register must be 16/32-bit"))
    else onRegister cx width (.primary 0xFF) digit r
  | .memory m =>
    match m.size with
    | .word => onMemory cx (some .word) (.primary 0xFF) digit m
    | .dword => onMemory cx (some .dword) (.primary 0xFF) digit m
    | _ => check (.error (i.invalid "branch target memory must be word or dword"))
  | _ => check (.error (i.invalid "expected a label, register, or memory operand"))

def jmp (i : Instruction) (cx : Context) : Writer Unit :=
  match i.operands with
  | [.label name] => branch cx name (.primary 0xE9) (some 0xEB)
  | [op] => indirect i cx 4 op
  | _ => check (.error (i.invalid "expected 1 operand"))

def call (i : Instruction) (cx : Context) : Writer Unit :=
  match i.operands with
  | [.label name] => branch cx name (.primary 0xE8) none
  | [op] => indirect i cx 2 op
  | _ => check (.error (i.invalid "expected 1 operand"))

def jcc (condition : Condition) (i : Instruction) (cx : Context) : Writer Unit :=
  match i.operands with
  | [.label name] =>
    branch cx name (.secondary (0x80 + condition.code)) (some (0x70 + condition.code))
  | _ => check (.error (i.invalid "expected a label operand"))

def ret (i : Instruction) : Writer Unit :=
  match i.operands with
  | [] => opcode (.primary 0xC3)
  | [.immediate v] => do
    check (Encoding.requireUnsigned .word v)
    opcode (.primary 0xC2)
    field .word v
  | _ => check (.error (i.invalid "expected no operand or an imm16"))

def int (i : Instruction) : Writer Unit :=
  match i.operands with
  | [.immediate v] => do
    check (Encoding.requireUnsigned .byte v)
    opcode (.primary 0xCD)
    field .byte v
  | _ => check (.error (i.invalid "expected an imm8 vector"))

/-! ## Input, output and system -/

/-- A transfer. The override and the opcode are written before the I/O address is checked. -/
def transfer (i : Instruction) (cx : Context) (width : Width) (byteOpcode : Nat) (op : Operand) :
    Writer Unit := do
  operandOverride cx.mode width
  match op with
  | .immediate v =>
    opcode (.primary (byteOpcode + width.opcodeBit))
    check (Encoding.requireUnsigned .byte v)
    field .byte v
  | .register .dx => opcode (.primary (byteOpcode + 8 + width.opcodeBit))
  | _ => check (.error (i.invalid "port must be an imm8 or dx"))

def input (i : Instruction) (cx : Context) : Writer Unit :=
  match i.operands with
  | [.register accumulator, op] => do
    let width ← check (Encoding.accumulatorWidth i accumulator)
    transfer i cx width 0xE4 op
  | _ => check (.error (i.invalid "expected accumulator, port"))

def output (i : Instruction) (cx : Context) : Writer Unit :=
  match i.operands with
  | [op, .register accumulator] => do
    let width ← check (Encoding.accumulatorWidth i accumulator)
    transfer i cx width 0xE6 op
  | _ => check (.error (i.invalid "expected port, accumulator"))

def table (op : TableOp) (i : Instruction) (cx : Context) : Writer Unit :=
  match i.operands with
  | [.memory m] => onMemory cx none (.secondary 0x01) op.number m
  | _ => check (.error (i.invalid "expected a memory operand"))

def plain (op : PlainOp) (i : Instruction) (cx : Context) : Writer Unit :=
  match i.operands with
  | [] => bare cx (Encoding.plainWidth op) (.primary (Encoding.plainOpcode op))
  | _ => check (.error (i.invalid "expected no operands"))

end Writer

namespace Instruction

/-- Writes an instruction. -/
def writer (i : Instruction) (cx : Context) : Writer Unit :=
  match i.mnemonic with
  | .mov => Writer.mov i cx
  | .movzx => Writer.movExtending 0xB6 i cx
  | .movsx => Writer.movExtending 0xBE i cx
  | .lea => Writer.lea i cx
  | .xchg => Writer.xchg i cx
  | .arithmetic op => Writer.arithmetic op i cx
  | .test => Writer.test i cx
  | .unary op => Writer.unary op.number i cx
  | .imul => Writer.imul i cx
  | .step op => Writer.step op i cx
  | .shift op => Writer.shift op i cx
  | .push => Writer.push i cx
  | .pop => Writer.pop i cx
  | .call => Writer.call i cx
  | .ret => Writer.ret i
  | .jmp => Writer.jmp i cx
  | .jcc condition => Writer.jcc condition i cx
  | .setcc condition => Writer.setcc condition i cx
  | .input => Writer.input i cx
  | .output => Writer.output i cx
  | .int => Writer.int i
  | .table op => Writer.table op i cx
  | .plain op => Writer.plain op i cx

/-- The buffer that an instruction is written to, which is empty before. -/
def write (i : Instruction) (cx : Context) : Except WriteFault InstructionBuffer := do
  let (_, buffer) ← i.writer cx .empty
  pure buffer

end Instruction

end BootImage
