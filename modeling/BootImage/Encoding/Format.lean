import BootImage.LittleEndian
import BootImage.Register

/-!
# The instruction format

An encoded instruction is, in this order: a segment override, an address-size override, an
operand-size override, the opcode, the addressing bytes (ModR/M, SIB and displacement) and an
immediate field. All but the opcode may be absent.

`Encoding` holds these parts as they are before the mode is known: it says at which width the
instruction works and how large its address is, and `Encoding.bytes` puts in the size overrides
that the mode calls for. Numbers in opcodes and addressing bytes are kept as natural numbers, so
that nothing wraps before they are written.
-/

namespace BootImage

/-- An opcode of one byte, or of one byte behind the escape byte `0F`. -/
inductive Opcode where
  | primary (byte : Nat)
  | secondary (byte : Nat)
  deriving DecidableEq

namespace Opcode

def bytes : Opcode → List UInt8
  | primary b => [UInt8.ofNat b]
  | secondary b => [0x0F, UInt8.ofNat b]

def length : Opcode → Nat
  | primary _ => 1
  | secondary _ => 2

@[simp] theorem length_bytes (o : Opcode) : o.bytes.length = o.length := by
  cases o <;> rfl

end Opcode

/-- The ModR/M byte: how the `rm` operand is addressed, and the other operand or an extension of
the opcode in `reg`. -/
structure ModRM where
  mod : Nat
  reg : Nat
  rm : Nat
  deriving DecidableEq

def ModRM.byte (m : ModRM) : UInt8 :=
  UInt8.ofNat (m.mod * 64 + m.reg * 8 + m.rm)

/-- The SIB byte: a base register and an index register scaled by `2 ^ shift`. -/
structure Sib where
  shift : Nat
  index : Nat
  base : Nat
  deriving DecidableEq

def Sib.byte (s : Sib) : UInt8 :=
  UInt8.ofNat (s.shift * 64 + s.index * 8 + s.base)

/-- The addressing bytes of an instruction. -/
structure Addressing where
  modrm : ModRM
  sib : Option Sib := none
  displacement : List UInt8 := []
  deriving DecidableEq

namespace Addressing

/-- The `rm` operand is the register with that number. -/
def register (reg rm : Nat) : Addressing where
  modrm := { mod := 3, reg, rm }

def bytes (a : Addressing) : List UInt8 :=
  a.modrm.byte :: ((a.sib.map Sib.byte).toList ++ a.displacement)

end Addressing

/-- Whether an operand of this width needs the operand-size override in this mode. The width of
byte operands is part of the opcode. -/
def Width.needsOverride (w : Width) (mode : Mode) : Bool :=
  w != .byte && w != mode.width

/-- The parts of an encoded instruction. -/
structure Encoding where
  /-- The segment that replaces the default one of the memory operand. -/
  segment : Option Segment := none
  /-- The size of the address, if there is a memory operand. -/
  addressSize : Option Mode := none
  /-- The width at which the instruction works, if a size override can change it. -/
  width : Option Width := none
  opcode : Opcode
  addressing : Option Addressing := none
  immediate : List UInt8 := []
  deriving DecidableEq

namespace Encoding

/-- The address-size override, if the address is not of the size of the mode. -/
def addressOverride (e : Encoding) (mode : Mode) : List UInt8 :=
  if e.addressSize.any (· != mode) then [0x67] else []

/-- The operand-size override, if the operands are not of the width of the mode. -/
def operandOverride (e : Encoding) (mode : Mode) : List UInt8 :=
  if e.width.any (·.needsOverride mode) then [0x66] else []

/-- The bytes in front of the opcode. -/
def overrides (e : Encoding) (mode : Mode) : List UInt8 :=
  (e.segment.map Segment.overrideByte).toList ++ e.addressOverride mode ++ e.operandOverride mode

/-- The bytes from the opcode on, which do not depend on the mode. -/
def body (e : Encoding) : List UInt8 :=
  e.opcode.bytes ++ e.addressing.elim [] Addressing.bytes ++ e.immediate

/-- The instruction as it stands in code of the given mode. -/
def bytes (e : Encoding) (mode : Mode) : List UInt8 :=
  e.overrides mode ++ e.body

end Encoding

end BootImage
