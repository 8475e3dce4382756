import BootImage.Instruction
import BootImage.LittleEndian

/-!
# What an encoding depends on

Besides its operands, the bytes of an instruction depend on the mode, on the form chosen for a
branch, on where the instruction stands, and on the values that its labels resolve to. A label
that is not resolved yet counts as zero. Its field has the full width all the same, so that the
length of an instruction is known before any label is.

Offsets and targets are 64-bit words, and the distance between two of them wraps around. A layout
counts its offsets in whole numbers.
-/

namespace BootImage

/-- How distances between offsets are counted. -/
inductive Counting where
  /-- In 64-bit words, unsigned ones for offsets and signed ones for targets. -/
  | words
  /-- In whole numbers. -/
  | numbers
  deriving DecidableEq

/-- The distance from `offset` to `target`. -/
def Counting.distance (counting : Counting) (offset : Nat) (target : Int) : Int :=
  match counting with
  | words => (Int64.ofInt target - (UInt64.ofNat offset).toInt64).toInt
  | numbers => target - offset

/-- The surroundings in which an instruction is encoded. -/
structure Context where
  mode : Mode := .bits32
  form : BranchForm := .near
  /-- The image offset of the first byte of the instruction. -/
  offset : Nat := 0
  /-- The image offset of a branch target, or the address of any other label operand. -/
  target : Option Int := none
  /-- The address in a memory operand with a label. -/
  symbol : Option Int := none
  /-- How the distance to a branch target is counted. -/
  counting : Counting := .words
  deriving DecidableEq

/-- The context for finding the length of an instruction, with no label resolved. -/
def Context.sizing (mode : Mode) (form : BranchForm) : Context where
  mode := mode
  form := form

/-- A number in an instruction. The value of a label is symbolic: it never takes a shorter
field than the widest. -/
structure Immediate where
  value : Int
  symbolic : Bool := false
  deriving DecidableEq

/-- Whether a signed byte holds `v`. -/
def FitsByte (v : Int) : Prop :=
  -128 ≤ v ∧ v ≤ 127

instance (v : Int) : Decidable (FitsByte v) :=
  inferInstanceAs (Decidable (_ ∧ _))

/-- Whether the number may be written as a sign-extended byte. -/
def Immediate.isShort (i : Immediate) : Bool :=
  !i.symbolic && decide (FitsByte i.value)

namespace Width

open scoped Powers

/-- The field of width `w` that holds `v`, which must fit as a signed or as an unsigned number. -/
def field (w : Width) (v : Int) : Except AssemblyError (List UInt8) :=
  if -2 ^ (w.bits - 1) ≤ v ∧ v < 2 ^ w.bits then .ok (LittleEndian.ofInt w.bytes v)
  else .error (.immediateOverflow v w.bits)

theorem length_field {w : Width} {v : Int} {bs : List UInt8} (h : w.field v = .ok bs) :
    bs.length = w.bytes := by
  unfold field at h
  split at h
  · injection h with h
    rw [← h, LittleEndian.length_ofInt]
  · cases h

end Width

/-- An operand with the value of its label put in. -/
inductive Argument where
  | register (register : Register)
  | memory (memory : Memory)
  | immediate (immediate : Immediate)
  deriving DecidableEq

/-- The operand in a context where a label operand has the value `target`. -/
def Operand.argument (target : Option Int) : Operand → Argument
  | register r => .register r
  | memory m => .memory m
  | immediate v => .immediate { value := v }
  | label _ => .immediate { value := target.getD 0, symbolic := true }

/-- The operands of an instruction in the given context. -/
def Instruction.arguments (i : Instruction) (cx : Context) : List Argument :=
  i.operands.map (Operand.argument cx.target)

end BootImage
