import BootImage.AssemblyError
import BootImage.LittleEndian

/-!
# Memory operands

A memory operand reads or writes `size [segment:base + index*scale + displacement]`. Every part
but the size may be absent, and the displacement may be the address of a label, known only once
the whole stream has been laid out.
-/

namespace BootImage

open Text

/-- How much memory an access covers. -/
inductive AccessSize where
  | byte
  | word
  | dword
  | qword
  | tword
  deriving DecidableEq

namespace AccessSize

def all : List AccessSize := [byte, word, dword, qword, tword]

def bits : AccessSize → Nat
  | byte => 8
  | word => 16
  | dword => 32
  | qword => 64
  | tword => 80

def name : AccessSize → String
  | byte => "byte"
  | word => "word"
  | dword => "dword"
  | qword => "qword"
  | tword => "tword"

/-- The size with the given name. -/
def ofName? (name : String) : Option AccessSize :=
  all.find? (·.name == name)

/-- The operand width of an access, if it is one that general-purpose operands have. -/
def width? : AccessSize → Option Width
  | byte => some .byte
  | word => some .word
  | dword => some .dword
  | qword | tword => none

end AccessSize

/-- The constant part of an address. -/
inductive Displacement where
  | literal (value : Int)
  /-- The address of a label plus a constant. -/
  | label (name : String) (delta : Int)
  deriving DecidableEq

/-- A memory operand. -/
structure Memory where
  size : AccessSize
  segment : Option Register := none
  base : Option Register := none
  index : Option Register := none
  /-- What the index register is multiplied by. -/
  scale : Nat := 1
  displacement : Displacement := .literal 0
  deriving DecidableEq

namespace Memory

open scoped Powers

/-- An access to address zero, with no register. -/
def ofSize (size : AccessSize) : Memory where
  size := size

/-- An access through one base register. -/
def ofBase (size : AccessSize) (base : Register) : Memory where
  size := size
  base := some base

/-- An access to a fixed address. -/
def absolute (size : AccessSize) (address : Int) : Memory where
  size := size
  displacement := .literal address

/-- An access to a label. -/
def ofLabel (size : AccessSize) (name : String) : Memory where
  size := size
  displacement := .label name 0

def withBase (m : Memory) (base : Register) : Memory :=
  { m with base := some base }

def withSegment (m : Memory) (segment : Register) : Memory :=
  { m with segment := some segment }

def withIndex (m : Memory) (index : Register) (scale : Nat) : Memory :=
  { m with index := some index, scale := scale }

def withDisplacement (m : Memory) (value : Int) : Memory :=
  { m with displacement := .literal value }

def withLabel (m : Memory) (name : String) (delta : Int) : Memory :=
  { m with displacement := .label name delta }

/-- The label of a symbolic displacement and the constant added to its address. -/
def labelRef? (m : Memory) : Option (String × Int) :=
  match m.displacement with
  | .label name delta => some (name, delta)
  | .literal _ => none

/-- The registers of the address: `base+index*scale`, with a scale of one left out. -/
def registerText (m : Memory) : String :=
  let index (r : Register) : String :=
    if m.scale = 1 then r.name else s!"{r.name}*{m.scale}"
  match m.base, m.index with
  | none, none => ""
  | some b, none => b.name
  | none, some i => index i
  | some b, some i => b.name ++ "+" ++ index i

/-- A nonzero constant with its sign, and nothing for zero. -/
def signedText (v : Int) : String :=
  if v < 0 then s!"-{v.natAbs}" else if v = 0 then "" else s!"+{v}"

/-- The displacement as it follows the registers. A literal that stands alone is written as the
32-bit word it is, in hexadecimal. -/
def displacementText (m : Memory) : String :=
  let alone := m.base.isNone && m.index.isNone
  match m.displacement with
  | .literal v => if alone then hexMarked (v % 2 ^ (32 : Nat)).toNat else signedText v
  | .label name delta => (if alone then "" else "+") ++ name ++ signedText delta

/-- The operand in assembler notation. -/
def text (m : Memory) : String :=
  let segment := m.segment.elim "" fun s => s.name ++ ":"
  s!"{m.size.name} [{segment}{m.registerText}{m.displacementText}]"

/-- The address size that a register asks for: 32-bit and 16-bit general-purpose registers can
form an address, and no others. -/
def registerAddressSize : Register → Except AssemblyError Mode
  | .general .dword _ => .ok .bits32
  | .general .word _ => .ok .bits16
  | r => .error (.unsupported s!"'{r.name}' as an address register")

/-- The size at which the address is computed: that of its registers, which must agree, or that
of the mode if it has none. -/
def addressSize (m : Memory) (mode : Mode) : Except AssemblyError Mode :=
  match m.base, m.index with
  | none, none => .ok mode
  | some r, none | none, some r => registerAddressSize r
  | some b, some i => do
    let size ← registerAddressSize b
    let size' ← registerAddressSize i
    if size = size' then .ok size
    else .error (.unsupported s!"mixed 16/32-bit address registers in '{m.text}'")

end Memory

end BootImage
