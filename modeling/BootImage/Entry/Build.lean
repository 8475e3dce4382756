import BootImage.Entry

/-!
# Writing streams

One function per instruction and data directive, so that a stream reads like assembler source.
The directives `bits`, `org`, `align`, `times`, `offset` and `label` are the constructors of
`Entry` themselves.
-/

namespace BootImage.Entry

/-- The entry for a mnemonic with its operands. -/
def machine (mnemonic : Mnemonic) (operands : List Operand) : Entry :=
  .instruction { mnemonic, operands }

/-! ## Data -/

/-- Raw bytes. -/
def db (bytes : List UInt8) : Entry := .data none (.bytes bytes)

/-- A little-endian word. -/
def dw (value : UInt16) : Entry := .data none (.word value)

/-- A little-endian dword. -/
def dd (value : UInt32) : Entry := .data none (.dword value)

/-- The address of a label. -/
def ddAddress (label : String) : Entry := .data none (.address label)

/-- A data value with a name. -/
def named (label : String) (value : DataValue) : Entry := .data (some label) value

/-- The UTF-8 bytes of `text`, ended by a zero byte. -/
def zeroTerminated (text : String) : List UInt8 := text.toUTF8.data.toList ++ [0]

/-- A named, zero-terminated text. -/
def string (label text : String) : Entry := named label (.bytes (zeroTerminated text))

/-! ## Data movement -/

def mov (dst src : Operand) : Entry := machine .mov [dst, src]
def movzx (dst src : Operand) : Entry := machine .movzx [dst, src]
def movsx (dst src : Operand) : Entry := machine .movsx [dst, src]
def lea (dst src : Operand) : Entry := machine .lea [dst, src]
def xchg (a b : Operand) : Entry := machine .xchg [a, b]

/-! ## Arithmetic and logic -/

def add (dst src : Operand) : Entry := machine (.arithmetic .add) [dst, src]
def or (dst src : Operand) : Entry := machine (.arithmetic .or) [dst, src]
def adc (dst src : Operand) : Entry := machine (.arithmetic .adc) [dst, src]
def sbb (dst src : Operand) : Entry := machine (.arithmetic .sbb) [dst, src]
def and (dst src : Operand) : Entry := machine (.arithmetic .and) [dst, src]
def sub (dst src : Operand) : Entry := machine (.arithmetic .sub) [dst, src]
def xor (dst src : Operand) : Entry := machine (.arithmetic .xor) [dst, src]
def cmp (dst src : Operand) : Entry := machine (.arithmetic .cmp) [dst, src]
def test (a b : Operand) : Entry := machine .test [a, b]
def not (op : Operand) : Entry := machine (.unary .not) [op]
def neg (op : Operand) : Entry := machine (.unary .neg) [op]
def mul (op : Operand) : Entry := machine (.unary .mul) [op]
def div (op : Operand) : Entry := machine (.unary .div) [op]
def idiv (op : Operand) : Entry := machine (.unary .idiv) [op]
def inc (op : Operand) : Entry := machine (.step .inc) [op]
def dec (op : Operand) : Entry := machine (.step .dec) [op]

/-- Signed multiplication of the accumulator. -/
def imul (op : Operand) : Entry := machine .imul [op]

/-- Signed multiplication into a register. -/
def imul₂ (dst src : Operand) : Entry := machine .imul [dst, src]

/-- Signed multiplication by a constant into a register. -/
def imul₃ (dst : Register) (src : Operand) (factor : Int) : Entry :=
  machine .imul [.register dst, src, .immediate factor]

/-! ## Shifts: the count is `cl` or a number -/

def shl (dst count : Operand) : Entry := machine (.shift .shl) [dst, count]
def shr (dst count : Operand) : Entry := machine (.shift .shr) [dst, count]
def sar (dst count : Operand) : Entry := machine (.shift .sar) [dst, count]
def rol (dst count : Operand) : Entry := machine (.shift .rol) [dst, count]
def ror (dst count : Operand) : Entry := machine (.shift .ror) [dst, count]

/-! ## Stack and control flow -/

def push (op : Operand) : Entry := machine .push [op]
def pop (op : Operand) : Entry := machine .pop [op]
def call (target : Operand) : Entry := machine .call [target]
def jmp (target : Operand) : Entry := machine .jmp [target]
def jcc (condition : Condition) (label : String) : Entry :=
  machine (.jcc condition) [.label label]
def setcc (condition : Condition) (op : Operand) : Entry := machine (.setcc condition) [op]
def je (label : String) : Entry := jcc .equal label
def jz (label : String) : Entry := jcc .equal label
def jne (label : String) : Entry := jcc .notEqual label
def jnz (label : String) : Entry := jcc .notEqual label
def jb (label : String) : Entry := jcc .below label
def jae (label : String) : Entry := jcc .aboveOrEqual label
def ja (label : String) : Entry := jcc .above label
def jbe (label : String) : Entry := jcc .belowOrEqual label
def jl (label : String) : Entry := jcc .less label
def jge (label : String) : Entry := jcc .greaterOrEqual label
def jg (label : String) : Entry := jcc .greater label
def jle (label : String) : Entry := jcc .lessOrEqual label
def ret : Entry := machine .ret []

/-- Return, and drop `n` bytes of arguments. -/
def retDropping (n : UInt16) : Entry := machine .ret [.immediate n.toNat]

/-- Software interrupt. -/
def int (vector : UInt8) : Entry := machine .int [.immediate vector.toNat]

/-! ## I/O and system: an I/O address is a byte or `dx` -/

def input (accumulator address : Operand) : Entry := machine .input [accumulator, address]
def output (address : Operand) (accumulator : Register) : Entry :=
  machine .output [address, .register accumulator]
def lgdt (op : Operand) : Entry := machine (.table .lgdt) [op]
def lidt (op : Operand) : Entry := machine (.table .lidt) [op]

/-- An instruction without operands. -/
def plain (op : PlainOp) : Entry := machine (.plain op) []

end BootImage.Entry
