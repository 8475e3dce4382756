/-!
# Condition codes

The sixteen conditions that a conditional jump or byte set can test. The four-bit number of a
condition is added to the opcode; an odd number is the negation of the even one before it.
-/

namespace BootImage

/-- A condition on the flags. -/
inductive Condition where
  | overflow
  | notOverflow
  | below
  | aboveOrEqual
  | equal
  | notEqual
  | belowOrEqual
  | above
  | sign
  | notSign
  | parity
  | notParity
  | less
  | greaterOrEqual
  | lessOrEqual
  | greater
  deriving DecidableEq

namespace Condition

def all : List Condition :=
  [overflow, notOverflow, below, aboveOrEqual, equal, notEqual, belowOrEqual, above,
    sign, notSign, parity, notParity, less, greaterOrEqual, lessOrEqual, greater]

/-- The four-bit number of the condition. -/
def code : Condition → Nat
  | overflow => 0
  | notOverflow => 1
  | below => 2
  | aboveOrEqual => 3
  | equal => 4
  | notEqual => 5
  | belowOrEqual => 6
  | above => 7
  | sign => 8
  | notSign => 9
  | parity => 10
  | notParity => 11
  | less => 12
  | greaterOrEqual => 13
  | lessOrEqual => 14
  | greater => 15

/-- What the condition adds to the mnemonics `j` and `set`. -/
def suffix : Condition → String
  | overflow => "o"
  | notOverflow => "no"
  | below => "b"
  | aboveOrEqual => "ae"
  | equal => "e"
  | notEqual => "ne"
  | belowOrEqual => "be"
  | above => "a"
  | sign => "s"
  | notSign => "ns"
  | parity => "p"
  | notParity => "np"
  | less => "l"
  | greaterOrEqual => "ge"
  | lessOrEqual => "le"
  | greater => "g"

/-- The condition with the given suffix. -/
def ofSuffix? (suffix : String) : Option Condition :=
  all.find? (·.suffix == suffix)

theorem code_lt (c : Condition) : c.code < 16 := by
  cases c <;> decide

theorem ofSuffix?_suffix (c : Condition) : ofSuffix? c.suffix = some c := by
  cases c <;> decide

end Condition

end BootImage
