import BootImage.Condition

/-!
# Mnemonics

The operations that have an encoding. Operations that share an opcode group, and differ only in
a three-bit number, form a family.
-/

namespace BootImage

/-- The eight two-operand operations of arithmetic and logic. -/
inductive ArithmeticOp where
  | add
  | or
  | adc
  | sbb
  | and
  | sub
  | xor
  | cmp
  deriving DecidableEq

/-- The operations of one operand in opcode group 3. -/
inductive UnaryOp where
  | not
  | neg
  | mul
  | div
  | idiv
  deriving DecidableEq

/-- Adding and subtracting one. -/
inductive StepOp where
  | inc
  | dec
  deriving DecidableEq

/-- The shifts and rotations. -/
inductive ShiftOp where
  | rol
  | ror
  | shl
  | shr
  | sar
  deriving DecidableEq

/-- Loads of a descriptor-table register. -/
inductive TableOp where
  | lgdt
  | lidt
  deriving DecidableEq

/-- Instructions without operands. -/
inductive PlainOp where
  | nop
  | hlt
  | cli
  | sti
  | cld
  | std
  | iretd
  | pushad
  | popad
  | pushfd
  | popfd
  | cdq
  | leave
  | int3
  deriving DecidableEq

/-- An operation. -/
inductive Mnemonic where
  | mov
  | movzx
  | movsx
  | lea
  | xchg
  | arithmetic (op : ArithmeticOp)
  | test
  | unary (op : UnaryOp)
  | imul
  | step (op : StepOp)
  | shift (op : ShiftOp)
  | push
  | pop
  | call
  | ret
  | jmp
  | jcc (condition : Condition)
  | setcc (condition : Condition)
  | input
  | output
  | int
  | table (op : TableOp)
  | plain (op : PlainOp)
  deriving DecidableEq

namespace ArithmeticOp

def all : List ArithmeticOp := [add, or, adc, sbb, and, sub, xor, cmp]

/-- The number of the operation in its opcode group. -/
def number : ArithmeticOp → Nat
  | add => 0
  | or => 1
  | adc => 2
  | sbb => 3
  | and => 4
  | sub => 5
  | xor => 6
  | cmp => 7

def name : ArithmeticOp → String
  | add => "add"
  | or => "or"
  | adc => "adc"
  | sbb => "sbb"
  | and => "and"
  | sub => "sub"
  | xor => "xor"
  | cmp => "cmp"

end ArithmeticOp

namespace UnaryOp

def all : List UnaryOp := [not, neg, mul, div, idiv]

/-- The number of the operation in its opcode group; number 5 is signed multiplication. -/
def number : UnaryOp → Nat
  | not => 2
  | neg => 3
  | mul => 4
  | div => 6
  | idiv => 7

def name : UnaryOp → String
  | not => "not"
  | neg => "neg"
  | mul => "mul"
  | div => "div"
  | idiv => "idiv"

end UnaryOp

namespace StepOp

def all : List StepOp := [inc, dec]

/-- The number of the operation in its opcode group. -/
def number : StepOp → Nat
  | inc => 0
  | dec => 1

def name : StepOp → String
  | inc => "inc"
  | dec => "dec"

end StepOp

namespace ShiftOp

def all : List ShiftOp := [rol, ror, shl, shr, sar]

/-- The number of the operation in its opcode group. -/
def number : ShiftOp → Nat
  | rol => 0
  | ror => 1
  | shl => 4
  | shr => 5
  | sar => 7

def name : ShiftOp → String
  | rol => "rol"
  | ror => "ror"
  | shl => "shl"
  | shr => "shr"
  | sar => "sar"

end ShiftOp

namespace TableOp

def all : List TableOp := [lgdt, lidt]

/-- The number of the operation in its opcode group. -/
def number : TableOp → Nat
  | lgdt => 2
  | lidt => 3

def name : TableOp → String
  | lgdt => "lgdt"
  | lidt => "lidt"

end TableOp

namespace PlainOp

def all : List PlainOp :=
  [nop, hlt, cli, sti, cld, std, iretd, pushad, popad, pushfd, popfd, cdq, leave, int3]

def name : PlainOp → String
  | nop => "nop"
  | hlt => "hlt"
  | cli => "cli"
  | sti => "sti"
  | cld => "cld"
  | std => "std"
  | iretd => "iretd"
  | pushad => "pushad"
  | popad => "popad"
  | pushfd => "pushfd"
  | popfd => "popfd"
  | cdq => "cdq"
  | leave => "leave"
  | int3 => "int3"

end PlainOp

namespace Mnemonic

def all : List Mnemonic :=
  [mov, movzx, movsx, lea, xchg] ++ ArithmeticOp.all.map arithmetic ++ [test] ++
    UnaryOp.all.map unary ++ [imul] ++ StepOp.all.map step ++ ShiftOp.all.map shift ++
    [push, pop, call, ret, jmp] ++ Condition.all.map jcc ++ Condition.all.map setcc ++
    [input, output, int] ++ TableOp.all.map table ++ PlainOp.all.map plain

/-- The mnemonic in assembler notation. -/
def name : Mnemonic → String
  | mov => "mov"
  | movzx => "movzx"
  | movsx => "movsx"
  | lea => "lea"
  | xchg => "xchg"
  | arithmetic op => op.name
  | test => "test"
  | unary op => op.name
  | imul => "imul"
  | step op => op.name
  | shift op => op.name
  | push => "push"
  | pop => "pop"
  | call => "call"
  | ret => "ret"
  | jmp => "jmp"
  | jcc c => "j" ++ c.suffix
  | setcc c => "set" ++ c.suffix
  | input => "in"
  | output => "out"
  | int => "int"
  | table op => op.name
  | plain op => op.name

/-- The operation with the given name. -/
def ofName? (name : String) : Option Mnemonic :=
  all.find? (·.name == name)

/-- Whether a label operand of this operation is a branch target. -/
def isBranch : Mnemonic → Bool
  | jmp | jcc _ | call => true
  | _ => false

/-- Whether this operation has both a short and a near form of branch. -/
def isJump : Mnemonic → Bool
  | jmp | jcc _ => true
  | _ => false

end Mnemonic

end BootImage
