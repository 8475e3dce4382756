import BootImage.Encoding.Form

/-!
# Encodings of stack operations

Registers have one-byte opcodes, segment registers opcodes of their own. A pushed number takes
one byte where a signed byte holds it, and otherwise a field as wide as the mode.
-/

namespace BootImage.Encoding

/-- The opcode that pushes a segment register. -/
def pushSegment : Segment → Opcode
  | .es => .primary 0x06
  | .cs => .primary 0x0E
  | .ss => .primary 0x16
  | .ds => .primary 0x1E
  | .fs => .secondary 0xA0
  | .gs => .secondary 0xA8

/-- The opcode that pops a segment register; there is none for `cs`. -/
def popSegment? : Segment → Option Opcode
  | .es => some (.primary 0x07)
  | .cs => none
  | .ss => some (.primary 0x17)
  | .ds => some (.primary 0x1F)
  | .fs => some (.secondary 0xA1)
  | .gs => some (.secondary 0xA9)

/-- `push op`. -/
def push (i : Instruction) (cx : Context) : Except AssemblyError Encoding :=
  match i.arguments cx with
  | [.register (.segment s)] => .ok { opcode := pushSegment s }
  | [.register (.general width n)] =>
    if width = .byte then .error (i.invalid "cannot push an 8-bit register")
    else .ok { width, opcode := .primary (0x50 + n.val) }
  | [.memory m] => do
    let width ← i.memoryWidth m
    if width = .byte then .error (i.invalid "cannot push a byte operand")
    else onMemory cx width (.primary 0xFF) 6 m
  | [.immediate imm] =>
    if imm.isShort then withImmediate { opcode := .primary 0x6A } .byte imm.value
    else withImmediate { opcode := .primary 0x68 } cx.mode.width imm.value
  | _ => .error (i.invalid "expected 1 operand")

/-- `pop op`. -/
def pop (i : Instruction) (cx : Context) : Except AssemblyError Encoding :=
  match i.operands with
  | [.register (.segment s)] =>
    match popSegment? s with
    | some opcode => .ok { opcode }
    | none => .error (i.invalid "cannot pop into cs")
  | [.register (.general width n)] =>
    if width = .byte then .error (i.invalid "cannot pop an 8-bit register")
    else .ok { width, opcode := .primary (0x58 + n.val) }
  | [.memory m] => do
    let width ← i.memoryWidth m
    if width = .byte then .error (i.invalid "cannot pop a byte operand")
    else onMemory cx width (.primary 0x8F) 0 m
  | _ => .error (i.invalid "expected one register or memory operand")

end BootImage.Encoding
