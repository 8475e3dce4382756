import BootImage.Instruction
import BootImage.Proofs.Decoding.Location

/-!
# The opcode map

The opcodes used here, as the processor reads them. A row of the map says which operation an opcode
is, at which width it works, and where its operands come from: the `rm` operand, the register in
`reg`, a register named by the opcode, or the field behind the addressing bytes. Opcodes come in
groups of eight; those that share an opcode are told apart by `reg`.

* `Row`, `Slot` — an entry of the map, and the sources of operands.
* `OpcodeMap.primary`, `OpcodeMap.secondary` — the map.
* `Opcode.hasModRM` — the opcodes with addressing bytes.
-/

namespace BootImage

/-! ## Decoded instructions -/

/-- An operand of a decoded instruction. -/
inductive DecodedOperand where
  | register (register : Register)
  /-- A location, with the width of the access if the instruction has one. -/
  | memory (width : Option Width) (location : Location)
  /-- A number modulo its width. -/
  | number (value : Int)
  /-- The distance of a branch, from its own end. -/
  | distance (value : Int)
  deriving DecidableEq

/-- A decoded instruction. -/
structure Decoded where
  operation : Mnemonic
  /-- The width at which it works, if it has one. -/
  width : Option Width
  operands : List DecodedOperand
  deriving DecidableEq

/-- The `rm` operand: the register with the given number, or a location. -/
inductive Rm where
  | register (number : Fin 8)
  | memory (location : Location)
  deriving DecidableEq

namespace Rm

def isRegister : Rm → Bool
  | register _ => true
  | memory _ => false

/-- The operand at the given width. -/
def operand (w : Width) : Rm → DecodedOperand
  | register n => .register (.general w n)
  | memory l => .memory w l

/-- The location, without an access. -/
def address? : Rm → Option DecodedOperand
  | register _ => none
  | memory l => some (.memory none l)

end Rm

/-! ## Rows -/

/-- Where an operand comes from. -/
inductive Slot where
  | rm (w : Width)
  /-- The location in `rm`, of which nothing is accessed at the width of the instruction. -/
  | address
  | reg (w : Width)
  /-- The segment register in `reg`. -/
  | segment
  | fixed (register : Register)
  | constant (value : Int)
  /-- A field, whose sign is extended to width `w`. -/
  | immediate (field w : Width)
  /-- A field with the distance of a branch. -/
  | distance (field : Width)

/-- The bytes that the operand takes behind the addressing bytes. -/
def Slot.fieldLength : Slot → Nat
  | immediate field _ | distance field => field.bytes
  | _ => 0

/-- An entry of the opcode map. -/
structure Row where
  operation : Mnemonic
  width : Option Width
  slots : List Slot

/-- The bytes behind the addressing bytes. -/
def Row.fieldLength (row : Row) : Nat :=
  (row.slots.map Slot.fieldLength).sum

namespace OpcodeMap

/-! ## Groups -/

def arithmeticOf : Nat → ArithmeticOp
  | 0 => .add
  | 1 => .or
  | 2 => .adc
  | 3 => .sbb
  | 4 => .and
  | 5 => .sub
  | 6 => .xor
  | _ => .cmp

def shiftOf? : Nat → Option ShiftOp
  | 0 => some .rol
  | 1 => some .ror
  | 4 => some .shl
  | 5 => some .shr
  | 7 => some .sar
  | _ => none

/-- The one-operand operations of group 3. -/
def unaryOf? : Nat → Option Mnemonic
  | 2 => some (.unary .not)
  | 3 => some (.unary .neg)
  | 4 => some (.unary .mul)
  | 5 => some .imul
  | 6 => some (.unary .div)
  | 7 => some (.unary .idiv)
  | _ => none

/-- The operations of group 5, of which the first two make up group 4. -/
def indirectOf? : Nat → Option Mnemonic
  | 0 => some (.step .inc)
  | 1 => some (.step .dec)
  | 2 => some .call
  | 4 => some .jmp
  | 6 => some .push
  | _ => none

def conditionOf : Nat → Condition
  | 0 => .overflow
  | 1 => .notOverflow
  | 2 => .below
  | 3 => .aboveOrEqual
  | 4 => .equal
  | 5 => .notEqual
  | 6 => .belowOrEqual
  | 7 => .above
  | 8 => .sign
  | 9 => .notSign
  | 10 => .parity
  | 11 => .notParity
  | 12 => .less
  | 13 => .greaterOrEqual
  | 14 => .lessOrEqual
  | _ => .greater

def segmentOf? : Nat → Option Segment
  | 0 => some .es
  | 1 => some .cs
  | 2 => some .ss
  | 3 => some .ds
  | 4 => some .fs
  | 5 => some .gs
  | _ => none

/-- Bit 0 of an opcode tells byte operands from full-size ones. -/
def sized (column : Nat) (w : Width) : Width :=
  if column % 2 = 0 then .byte else w

/-- The accumulator. -/
def accumulator (w : Width) : Slot :=
  .fixed (.ofCode w 0)

/-- A row of one of the operations that exist for full-size operands of 32 bits only. -/
def dwordOnly (w : Width) (op : PlainOp) : Option Row :=
  if w = .dword then some ⟨.plain op, some .dword, []⟩ else none

/-! ## Opcodes of one byte -/

/-- The first quarter of the map, where all but the last two columns are arithmetic. -/
def arithmetic (row column : Nat) (w : Width) : Option Row :=
  let op := Mnemonic.arithmetic (arithmeticOf row)
  let v := sized column w
  match column, row with
  | 0, _ | 1, _ => some ⟨op, v, [.rm v, .reg v]⟩
  | 2, _ | 3, _ => some ⟨op, v, [.reg v, .rm v]⟩
  | 4, _ | 5, _ => some ⟨op, v, [accumulator v, .immediate v v]⟩
  | 6, 0 => some ⟨.push, w, [.fixed .es]⟩
  | 6, 1 => some ⟨.push, w, [.fixed .cs]⟩
  | 6, 2 => some ⟨.push, w, [.fixed .ss]⟩
  | 6, 3 => some ⟨.push, w, [.fixed .ds]⟩
  | 7, 0 => some ⟨.pop, w, [.fixed .es]⟩
  | 7, 2 => some ⟨.pop, w, [.fixed .ss]⟩
  | 7, 3 => some ⟨.pop, w, [.fixed .ds]⟩
  | _, _ => none

/-- The second quarter. -/
def stack (row column : Nat) (w : Width) : Option Row :=
  match row, column with
  | 8, _ => some ⟨.step .inc, w, [.fixed (.ofCode w column)]⟩
  | 9, _ => some ⟨.step .dec, w, [.fixed (.ofCode w column)]⟩
  | 10, _ => some ⟨.push, w, [.fixed (.ofCode w column)]⟩
  | 11, _ => some ⟨.pop, w, [.fixed (.ofCode w column)]⟩
  | 12, 0 => dwordOnly w .pushad
  | 12, 1 => dwordOnly w .popad
  | 13, 0 => some ⟨.push, w, [.immediate w w]⟩
  | 13, 1 => some ⟨.imul, w, [.reg w, .rm w, .immediate w w]⟩
  | 13, 2 => some ⟨.push, w, [.immediate .byte w]⟩
  | 13, 3 => some ⟨.imul, w, [.reg w, .rm w, .immediate .byte w]⟩
  | 14, _ => some ⟨.jcc (conditionOf column), w, [.distance .byte]⟩
  | 15, _ => some ⟨.jcc (conditionOf (8 + column)), w, [.distance .byte]⟩
  | _, _ => none

/-- The third quarter. A segment register is stored as a word, and copied to a register of any
size. -/
def move (row column reg : Nat) (isRegister : Bool) (w : Width) : Option Row :=
  let v := sized column w
  match row, column with
  | 16, 0 | 16, 1 => some ⟨.arithmetic (arithmeticOf reg), v, [.rm v, .immediate v v]⟩
  | 16, 3 => some ⟨.arithmetic (arithmeticOf reg), w, [.rm w, .immediate .byte w]⟩
  | 16, 4 | 16, 5 => some ⟨.test, v, [.rm v, .reg v]⟩
  | 16, 6 | 16, 7 => some ⟨.xchg, v, [.rm v, .reg v]⟩
  | 17, 0 | 17, 1 => some ⟨.mov, v, [.rm v, .reg v]⟩
  | 17, 2 | 17, 3 => some ⟨.mov, v, [.reg v, .rm v]⟩
  | 17, 4 =>
    let stored := if isRegister then w else .word
    some ⟨.mov, stored, [.rm stored, .segment]⟩
  | 17, 5 => some ⟨.lea, w, [.reg w, .address]⟩
  | 17, 6 => some ⟨.mov, some .word, [.segment, .rm .word]⟩
  | 17, 7 => if reg = 0 then some ⟨.pop, w, [.rm w]⟩ else none
  | 18, 0 => some ⟨.plain .nop, w, []⟩
  | 18, _ => some ⟨.xchg, w, [accumulator w, .fixed (.ofCode w column)]⟩
  | 19, 1 => dwordOnly w .cdq
  | 19, 4 => dwordOnly w .pushfd
  | 19, 5 => dwordOnly w .popfd
  | 21, 0 | 21, 1 => some ⟨.test, v, [accumulator v, .immediate v v]⟩
  | 22, _ => some ⟨.mov, some .byte, [.fixed (.ofCode .byte column), .immediate .byte .byte]⟩
  | 23, _ => some ⟨.mov, w, [.fixed (.ofCode w column), .immediate w w]⟩
  | _, _ => none

/-- The last quarter. -/
def control (row column reg : Nat) (w : Width) : Option Row :=
  let v := sized column w
  let shift (count : Slot) : Option Row :=
    (shiftOf? reg).map fun op => ⟨.shift op, v, [.rm v, count]⟩
  match row, column with
  | 24, 0 | 24, 1 => shift (.immediate .byte .byte)
  | 24, 2 => some ⟨.ret, w, [.immediate .word .word]⟩
  | 24, 3 => some ⟨.ret, w, []⟩
  | 24, 6 | 24, 7 => if reg = 0 then some ⟨.mov, v, [.rm v, .immediate v v]⟩ else none
  | 25, 1 => some ⟨.plain .leave, w, []⟩
  | 25, 4 => some ⟨.plain .int3, none, []⟩
  | 25, 5 => some ⟨.int, none, [.immediate .byte .byte]⟩
  | 25, 7 => dwordOnly w .iretd
  | 26, 0 | 26, 1 => shift (.constant 1)
  | 26, 2 | 26, 3 => shift (.fixed .cl)
  | 28, 4 | 28, 5 => some ⟨.input, v, [accumulator v, .immediate .byte .byte]⟩
  | 28, 6 | 28, 7 => some ⟨.output, v, [.immediate .byte .byte, accumulator v]⟩
  | 29, 0 => some ⟨.call, w, [.distance w]⟩
  | 29, 1 => some ⟨.jmp, w, [.distance w]⟩
  | 29, 3 => some ⟨.jmp, w, [.distance .byte]⟩
  | 29, 4 | 29, 5 => some ⟨.input, v, [accumulator v, .fixed .dx]⟩
  | 29, 6 | 29, 7 => some ⟨.output, v, [.fixed .dx, accumulator v]⟩
  | 30, 4 => some ⟨.plain .hlt, none, []⟩
  | 30, 6 | 30, 7 =>
    if reg = 0 then some ⟨.test, v, [.rm v, .immediate v v]⟩
    else (unaryOf? reg).map fun op => ⟨op, v, [.rm v]⟩
  | 31, 2 => some ⟨.plain .cli, none, []⟩
  | 31, 3 => some ⟨.plain .sti, none, []⟩
  | 31, 4 => some ⟨.plain .cld, none, []⟩
  | 31, 5 => some ⟨.plain .std, none, []⟩
  | 31, 6 => if reg < 2 then (indirectOf? reg).map fun op => ⟨op, some .byte, [.rm .byte]⟩ else none
  | 31, 7 => (indirectOf? reg).map fun op => ⟨op, w, [.rm w]⟩
  | _, _ => none

/-- The opcodes of one byte. -/
def primary (byte reg : Nat) (isRegister : Bool) (w : Width) : Option Row :=
  let row := byte / 8
  let column := byte % 8
  if row < 8 then arithmetic row column w
  else if row < 16 then stack row column w
  else if row < 24 then move row column reg isRegister w
  else control row column reg w

/-! ## Opcodes behind the escape byte -/

/-- The opcodes behind the escape byte. -/
def secondary (byte reg : Nat) (w : Width) : Option Row :=
  let column := byte % 8
  match byte / 8, column with
  | 0, 1 =>
    match reg with
    | 2 => some ⟨.table .lgdt, w, [.address]⟩
    | 3 => some ⟨.table .lidt, w, [.address]⟩
    | _ => none
  | 16, _ => some ⟨.jcc (conditionOf column), w, [.distance w]⟩
  | 17, _ => some ⟨.jcc (conditionOf (8 + column)), w, [.distance w]⟩
  | 18, _ => some ⟨.setcc (conditionOf column), some .byte, [.rm .byte]⟩
  | 19, _ => some ⟨.setcc (conditionOf (8 + column)), some .byte, [.rm .byte]⟩
  | 20, 0 => some ⟨.push, w, [.fixed .fs]⟩
  | 20, 1 => some ⟨.pop, w, [.fixed .fs]⟩
  | 21, 0 => some ⟨.push, w, [.fixed .gs]⟩
  | 21, 1 => some ⟨.pop, w, [.fixed .gs]⟩
  | 21, 7 => some ⟨.imul, w, [.reg w, .rm w]⟩
  | 22, 6 => some ⟨.movzx, w, [.reg w, .rm .byte]⟩
  | 22, 7 => some ⟨.movzx, w, [.reg w, .rm .word]⟩
  | 23, 6 => some ⟨.movsx, w, [.reg w, .rm .byte]⟩
  | 23, 7 => some ⟨.movsx, w, [.reg w, .rm .word]⟩
  | _, _ => none

end OpcodeMap

/-- Whether addressing bytes follow the opcode. -/
def Opcode.hasModRM : Opcode → Bool
  | primary b =>
    match b / 8, b % 8 with
    | 0, c | 1, c | 2, c | 3, c | 4, c | 5, c | 6, c | 7, c => c < 4
    | 13, c => c == 1 || c == 3
    | 16, _ | 17, _ => true
    | 24, c => c < 2 || c == 6 || c == 7
    | 26, c => c < 4
    | 30, c | 31, c => c == 6 || c == 7
    | _, _ => false
  | secondary b =>
    match b / 8, b % 8 with
    | 0, _ | 18, _ | 19, _ => true
    | 21, c => c == 7
    | 22, c | 23, c => c == 6 || c == 7
    | _, _ => false

end BootImage
