/-!
# Processor modes and operand widths

The processor runs 16-bit or 32-bit code. The mode fixes the default width of operands and of
addresses; an instruction that wants the other width of either says so with a size-override
byte in front of its opcode.
-/

namespace BootImage

/-- The two sizes of code, and likewise of the addresses that an instruction computes. -/
inductive Mode where
  | bits16
  | bits32
  deriving DecidableEq

/-- The widths of a general-purpose operand. -/
inductive Width where
  | byte
  | word
  | dword
  deriving DecidableEq

namespace Mode

/-- The mode a stream starts in before it says anything else. -/
def initial : Mode := .bits32

def bits : Mode → Nat
  | bits16 => 16
  | bits32 => 32

/-- The default width of operands in this mode. -/
def width : Mode → Width
  | bits16 => .word
  | bits32 => .dword

end Mode

namespace Width

def bits : Width → Nat
  | byte => 8
  | word => 16
  | dword => 32

def bytes : Width → Nat
  | byte => 1
  | word => 2
  | dword => 4

/-- Bit 0 of most opcodes: clear for a byte operand, set for a full-size one. -/
def opcodeBit : Width → Nat
  | byte => 0
  | word | dword => 1

end Width

end BootImage
