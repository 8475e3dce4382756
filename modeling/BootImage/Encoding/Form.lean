import BootImage.Encoding.Address

/-!
# Instruction forms

The forms that instructions share: two registers, a register with a number in `reg`, a memory
operand, and an immediate behind any of them. Each checks its operands in a fixed order, so that
of two faults the same one is always reported.
-/

namespace BootImage

namespace Instruction

/-- The width of a register that must be general-purpose. -/
def generalWidth (i : Instruction) (r : Register) : Except AssemblyError Width :=
  if r.isSegment then .error (i.invalid "segment register not allowed here") else .ok r.width

/-- The width of a memory operand that fixes the width of the instruction. -/
def memoryWidth (i : Instruction) (m : Memory) : Except AssemblyError Width :=
  match m.size.width? with
  | some w => .ok w
  | none => .error (.unsupported i.text)

end Instruction

namespace Encoding

open scoped Powers

/-- An opcode with a register operand, next to the number `reg`. -/
def onRegister (width : Option Width) (opcode : Opcode) (reg : Nat) (rm : Register) : Encoding where
  width := width
  opcode := opcode
  addressing := some (.register reg rm.code)

/-- An opcode with a memory operand, next to the number `reg`. -/
def onMemory (cx : Context) (width : Option Width) (opcode : Opcode) (reg : Nat) (m : Memory) :
    Except AssemblyError Encoding := do
  let segment ← m.segmentOverride
  let addressSize ← m.addressSize cx.mode
  let addressing ← m.addressing cx.mode cx.symbol reg
  pure { segment, addressSize, width, opcode, addressing }

/-- An opcode with two general-purpose registers of one width. -/
def onPair (i : Instruction) (opcode : Opcode) (rm reg : Register) :
    Except AssemblyError Encoding := do
  let width ← i.generalWidth rm
  let width' ← i.generalWidth reg
  if width' = width then pure (onRegister width opcode reg.code rm)
  else .error (i.invalid "operand sizes do not match")

/-- The same encoding with an immediate field for `v`. -/
def withImmediate (e : Encoding) (w : Width) (v : Int) : Except AssemblyError Encoding := do
  let field ← w.field v
  pure { e with immediate := field }

/-- Refuses a number that does not fit an unsigned field of width `w`. -/
def requireUnsigned (w : Width) (v : Int) : Except AssemblyError Unit :=
  if 0 ≤ v ∧ v < 2 ^ w.bits then .ok () else .error (.immediateOverflow v w.bits)

end Encoding

end BootImage
