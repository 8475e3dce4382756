import BootImage.Operand.Memory

/-!
# Operands

What an instruction works on: a register, a number, a memory location, or a label. A label is
the target of a branch, and stands for its own address everywhere else.
-/

namespace BootImage

open Text

/-- An operand of an instruction. -/
inductive Operand where
  | register (register : Register)
  | immediate (value : Int)
  | memory (memory : Memory)
  | label (name : String)
  deriving DecidableEq

namespace Operand

instance : Coe Register Operand := ⟨register⟩

instance : Coe Int Operand := ⟨immediate⟩

instance : Coe Memory Operand := ⟨memory⟩

instance : Coe String Operand := ⟨label⟩

instance (n : Nat) : OfNat Operand n := ⟨immediate n⟩

/-- A number as an operand: one digit in decimal, anything longer in hexadecimal behind its
sign. -/
def immediateText (v : Int) : String :=
  if -9 ≤ v ∧ v ≤ 9 then toString v
  else if v < 0 then "-" ++ hexMarked v.natAbs
  else hexMarked v.natAbs

/-- The operand in assembler notation. -/
def text : Operand → String
  | register r => r.name
  | immediate v => immediateText v
  | memory m => m.text
  | label name => name

def memory? : Operand → Option Memory
  | memory m => some m
  | _ => none

def label? : Operand → Option String
  | label name => some name
  | _ => none

end Operand

end BootImage
