import BootImage.Encoding.Form

/-!
# Encodings of data movement

`mov` in all its directions, the two extending moves, `lea` and `xchg`. Moves to and from a
segment register have opcodes of their own; from memory they take no width.
-/

namespace BootImage.Encoding

/-- Between registers. A segment register exchanges with a 16-bit or 32-bit register. -/
def movRegisters (i : Instruction) (dst src : Register) : Except AssemblyError Encoding :=
  if dst.isSegment then
    if src.width = .byte ∨ src.isSegment then
      .error (i.invalid "segment register source must be a 16/32-bit register")
    else .ok (onRegister none (.primary 0x8E) dst.code src)
  else if src.isSegment then
    if dst.width = .byte then
      .error (i.invalid "segment register destination must be 16/32-bit")
    else .ok (onRegister dst.width (.primary 0x8C) src.code dst)
  else onPair i (.primary (0x88 + dst.width.opcodeBit)) dst src

/-- `mov dst, src`. -/
def mov (i : Instruction) (cx : Context) : Except AssemblyError Encoding :=
  match i.arguments cx with
  | [.register dst, .register src] => movRegisters i dst src
  | [.register dst, .memory m] =>
    if dst.isSegment then onMemory cx none (.primary 0x8E) dst.code m
    else onMemory cx dst.width (.primary (0x8A + dst.width.opcodeBit)) dst.code m
  | [.memory m, .register src] =>
    if src.isSegment then onMemory cx none (.primary 0x8C) src.code m
    else onMemory cx src.width (.primary (0x88 + src.width.opcodeBit)) src.code m
  | [.register dst, .immediate imm] => do
    let width ← i.generalWidth dst
    let base := if width = .byte then 0xB0 else 0xB8
    withImmediate { width, opcode := .primary (base + dst.code) } width imm.value
  | [.memory m, .immediate imm] => do
    let width ← i.memoryWidth m
    let e ← onMemory cx width (.primary (0xC6 + width.opcodeBit)) 0 m
    e.withImmediate width imm.value
  | [_, _] => .error (i.invalid "unsupported operand combination")
  | _ => .error (i.invalid "expected 2 operands")

/-- `movzx` and `movsx`: the opcode for a byte source is `byteOpcode`, and that for a word
source follows it. The source must be narrower than the destination. -/
def movExtending (byteOpcode : Nat) (i : Instruction) (cx : Context) :
    Except AssemblyError Encoding :=
  match i.operands with
  | [.register dst, .register src] => do
    let width ← i.generalWidth dst
    let source ← i.generalWidth src
    if source.bits < width.bits then
      pure (onRegister width (.secondary (byteOpcode + source.opcodeBit)) dst.code src)
    else .error (i.invalid "source must be narrower than the destination")
  | [.register dst, .memory m] => do
    let width ← i.generalWidth dst
    let source ← i.memoryWidth m
    if source.bits < width.bits then
      onMemory cx width (.secondary (byteOpcode + source.opcodeBit)) dst.code m
    else .error (i.invalid "source must be narrower than the destination")
  | [.register dst, _] => do
    let _ ← i.generalWidth dst
    .error (i.invalid "source must be a register or memory")
  | _ => .error (i.invalid "expected a register destination and a source")

/-- `lea dst, [address]`. -/
def lea (i : Instruction) (cx : Context) : Except AssemblyError Encoding :=
  match i.operands with
  | [.register dst, .memory m] => do
    let width ← i.generalWidth dst
    if width = .byte then .error (i.invalid "destination must be 16/32-bit")
    else onMemory cx width (.primary 0x8D) dst.code m
  | _ => .error (i.invalid "expected register, memory")

/-- `xchg a, b`: the exchange of the full-size accumulator with a register takes one byte. -/
def xchg (i : Instruction) (cx : Context) : Except AssemblyError Encoding :=
  match i.operands with
  | [.register a, .register b] => do
    let width ← i.generalWidth a
    let width' ← i.generalWidth b
    if width' ≠ width then .error (i.invalid "operand sizes do not match")
    else if width ≠ .byte ∧ (a.code = 0 ∨ b.code = 0) then
      let other := if a.code = 0 then b else a
      pure { width, opcode := .primary (0x90 + other.code) }
    else pure (onRegister width (.primary (0x86 + width.opcodeBit)) b.code a)
  | [.register r, .memory m] | [.memory m, .register r] => do
    let width ← i.generalWidth r
    onMemory cx width (.primary (0x86 + width.opcodeBit)) r.code m
  | [_, _] => .error (i.invalid "unsupported operand combination")
  | _ => .error (i.invalid "expected 2 operands")

end BootImage.Encoding
