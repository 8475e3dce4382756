/-!
# The instruction buffer

An instruction is at most 15 bytes long, so a buffer of sixteen bytes holds any one of them.
Writing past the end is refused and leaves the buffer as it was.
-/

namespace BootImage

/-- The bytes of one instruction. -/
structure InstructionBuffer where
  bytes : List UInt8 := []
  length_le : bytes.length ≤ 16 := by decide

namespace InstructionBuffer

/-- The number of bytes that fit. -/
def capacity : Nat := 16

/-- A write that does not fit. -/
inductive Overflow where
  /-- One byte more than a full buffer holds. -/
  | push
  /-- A run of `added` bytes behind the first `length`. -/
  | append (length added : Nat)
  deriving DecidableEq

/-- The text of a refused write. -/
def Overflow.message : Overflow → String
  | push => s!"InstrBytes overflow: cannot push beyond {capacity} bytes"
  | append length added =>
    s!"InstrBytes overflow: {length} + {added} exceeds {capacity}-byte capacity"

def empty : InstructionBuffer where

def length (b : InstructionBuffer) : Nat := b.bytes.length

def isEmpty (b : InstructionBuffer) : Bool := b.length == 0

/-- The buffer with one byte more. -/
def push (b : InstructionBuffer) (byte : UInt8) : Except Overflow InstructionBuffer :=
  if h : b.bytes.length < 16 then
    .ok { bytes := b.bytes ++ [byte], length_le := by rw [List.length_append]; exact h }
  else .error .push

/-- The buffer with a run of bytes more. -/
def append (b : InstructionBuffer) (bytes : List UInt8) : Except Overflow InstructionBuffer :=
  if h : b.bytes.length + bytes.length ≤ 16 then
    .ok { bytes := b.bytes ++ bytes, length_le := by simpa using h }
  else .error (.append b.bytes.length bytes.length)

/-- The bytes in decimal, in square brackets. -/
def text (b : InstructionBuffer) : String :=
  "[" ++ ", ".intercalate (b.bytes.map fun byte => toString byte.toNat) ++ "]"

end InstructionBuffer

end BootImage
