import BootImage.Encoding.Context
import BootImage.Proofs.Decoding.OpcodeMap

/-!
# The meaning of instructions

What an instruction tells the processor to do, whichever bytes it is written with: the operation,
the width at which it works, and its operands at that width. A number counts modulo the width, and
a branch by its distance. Where the processor has one instruction for two ways of writing it, both
have one meaning: an exchange or a test with memory does not depend on the order of the operands,
the exchange of the accumulator with itself does nothing, and of a register that is moved to a
segment register only the low word counts.

* `Operand.commonWidth` — the width at which operands are worked on.
* `Instruction.meaning` — the meaning of an instruction.
-/

namespace BootImage

namespace Operand

/-- The width of a general-purpose register. -/
def generalWidth? : Operand → Option Width
  | register (.general w _) => some w
  | _ => none

/-- The width at which operands are worked on: that of a register among them, or else that of a
memory operand, or else that of the mode. -/
def commonWidth (mode : Mode) (operands : List Operand) : Width :=
  (operands.findSome? generalWidth? <|>
    operands.findSome? fun op => op.memory?.bind (·.size.width?)).getD mode.width

/-- The operand at the given width. -/
def decoded (cx : Context) (w : Width) : Operand → DecodedOperand
  | register r => .register r
  | memory m => .memory w (m.location cx.mode cx.symbol)
  | immediate v => .number (v % 2 ^ w.bits)
  | label _ => .number (cx.target.getD 0 % 2 ^ w.bits)

/-- With no register among the operands, the first memory operand counts. -/
theorem commonWidth_memory {mode : Mode} {m : Memory} {w : Width} {operands : List Operand}
    (h : m.size.width? = some w) (hoperands : operands.findSome? generalWidth? = none) :
    commonWidth mode (memory m :: operands) = w := by
  simp [commonWidth, List.findSome?, generalWidth?, hoperands, memory?, h]

/-- The low word of a register. -/
def asWord : Operand → Operand
  | register (.general _ n) => register (.general .word n)
  | op => op

/-- The operands of an instruction that does not depend on their order. -/
def memoryFirst : List Operand → List Operand
  | [register r, memory m] => [memory m, register r]
  | operands => operands

end Operand

/-- The width at which an instruction without operands works. -/
def PlainOp.widthIn (mode : Mode) : PlainOp → Option Width
  | nop | leave => mode.width
  | iretd | pushad | popad | pushfd | popfd | cdq => some .dword
  | hlt | cli | sti | cld | std | int3 => none

namespace Instruction

/-- An operation on operands of one width. -/
def uniformMeaning (operation : Mnemonic) (operands : List Operand) (cx : Context) : Decoded :=
  let w := Operand.commonWidth cx.mode operands
  { operation, width := w, operands := operands.map (·.decoded cx w) }

/-- An operation at the width of its first operand; the second has a width of its own. -/
def mixedMeaning (operation : Mnemonic) (operands : List Operand) (width : Operand → Width)
    (cx : Context) : Decoded :=
  match operands with
  | [dst, src] =>
    let w := Operand.commonWidth cx.mode [dst]
    { operation, width := w, operands := [dst.decoded cx w, src.decoded cx (width src)] }
  | _ => uniformMeaning operation operands cx

/-- An operation with a location that it does not access at its own width. -/
def addressMeaning (operation : Mnemonic) (operands : List Operand) (cx : Context) : Decoded :=
  let w := Operand.commonWidth cx.mode (operands.filter (·.memory?.isNone))
  let operand (op : Operand) : DecodedOperand :=
    op.memory?.elim (op.decoded cx w) fun m => .memory none (m.location cx.mode cx.symbol)
  { operation, width := w, operands := operands.map operand }

/-- A move. A segment register takes a word, and gives one to memory. -/
def moveMeaning (operands : List Operand) (cx : Context) : Decoded :=
  let words (dst src : Operand) : Decoded :=
    { operation := .mov, width := some .word, operands := [dst, src].map (·.decoded cx .word) }
  match operands with
  | [.register (.segment s), src] => words (Register.segment s) src.asWord
  | [.memory m, .register (.segment s)] => words m (Register.segment s)
  | _ => uniformMeaning .mov operands cx

/-- An exchange. The full-size accumulator comes first. -/
def exchangeMeaning (operands : List Operand) (cx : Context) : Decoded :=
  match operands with
  | [.register (.general w a), .register (.general _ b)] =>
    if w ≠ .byte ∧ a.val = 0 ∧ b.val = 0 then
      { operation := .plain .nop, width := w, operands := [] }
    else if w ≠ .byte ∧ b.val = 0 then uniformMeaning .xchg operands.reverse cx
    else uniformMeaning .xchg operands cx
  | _ => uniformMeaning .xchg (Operand.memoryFirst operands) cx

/-- A branch that is `length` bytes long. -/
def branchMeaning (operation : Mnemonic) (operands : List Operand) (cx : Context) (length : Nat) :
    Decoded :=
  match operands with
  | [.label _] =>
    let distance := cx.target.elim 0 (cx.counting.distance (cx.offset + length))
    { operation, width := cx.mode.width, operands := [.distance distance] }
  | _ => uniformMeaning operation operands cx

/-- Output: a byte or `dx` says where to, and the second operand says what. -/
def outputMeaning (operands : List Operand) (cx : Context) : Decoded :=
  match operands with
  | [dst, src] =>
    let w := Operand.commonWidth cx.mode [src]
    { operation := .output, width := w, operands := [dst.decoded cx .byte, src.decoded cx w] }
  | _ => uniformMeaning .output operands cx

/-- What an instruction of `length` bytes tells the processor to do. -/
def meaning (i : Instruction) (cx : Context) (length : Nat) : Decoded :=
  let mode := cx.mode
  match i.mnemonic with
  | .mov => moveMeaning i.operands cx
  | .movzx | .movsx =>
    mixedMeaning i.mnemonic i.operands (fun src => Operand.commonWidth mode [src]) cx
  | .shift _ | .input => mixedMeaning i.mnemonic i.operands (fun _ => .byte) cx
  | .output => outputMeaning i.operands cx
  | .lea | .table _ => addressMeaning i.mnemonic i.operands cx
  | .xchg => exchangeMeaning i.operands cx
  | .test => uniformMeaning .test (Operand.memoryFirst i.operands) cx
  | .arithmetic _ | .unary _ | .imul | .step _ | .setcc _ | .push | .pop =>
    uniformMeaning i.mnemonic i.operands cx
  | .call | .jmp | .jcc _ => branchMeaning i.mnemonic i.operands cx length
  | .ret => {
      operation := .ret, width := mode.width, operands := i.operands.map (·.decoded cx .word) }
  | .int => { operation := .int, width := none, operands := i.operands.map (·.decoded cx .byte) }
  | .plain op => { operation := .plain op, width := op.widthIn mode, operands := [] }

/-! ## Operations -/

variable {operation : Mnemonic} {operands : List Operand} {cx : Context}

@[simp] theorem operation_mixedMeaning (width : Operand → Width) :
    (mixedMeaning operation operands width cx).operation = operation := by
  unfold mixedMeaning
  split <;> rfl

@[simp] theorem operation_moveMeaning : (moveMeaning operands cx).operation = .mov := by
  unfold moveMeaning
  split <;> rfl

@[simp] theorem operation_branchMeaning (length : Nat) :
    (branchMeaning operation operands cx length).operation = operation := by
  unfold branchMeaning
  split <;> rfl

@[simp] theorem operation_outputMeaning : (outputMeaning operands cx).operation = .output := by
  unfold outputMeaning
  split <;> rfl

theorem operation_exchangeMeaning (operands : List Operand) (cx : Context) :
    (exchangeMeaning operands cx).operation = .xchg ∨
      ∃ w w', operands = [.register (.general w 0), .register (.general w' 0)] := by
  unfold exchangeMeaning
  split
  case h_1 w a w' b =>
    split
    case isTrue h =>
      obtain ⟨-, ha, hb⟩ := h
      obtain rfl : a = 0 := Fin.ext ha
      obtain rfl : b = 0 := Fin.ext hb
      exact .inr ⟨w, w', rfl⟩
    case isFalse => split <;> exact .inl rfl
  case h_2 => exact .inl rfl

/-- The operation is the one that the instruction names, unless the accumulator is exchanged with
itself. -/
theorem operation_meaning (i : Instruction) (cx : Context) (length : Nat) :
    (i.meaning cx length).operation = i.mnemonic ∨
      ∃ w w', i = ⟨.xchg, [.register (.general w 0), .register (.general w' 0)]⟩ := by
  obtain ⟨mnemonic, operands⟩ := i
  cases mnemonic
  case xchg =>
    rcases operation_exchangeMeaning operands cx with h | ⟨w, w', rfl⟩
    · exact .inl h
    · exact .inr ⟨w, w', rfl⟩
  all_goals simp [meaning, uniformMeaning, addressMeaning]

end Instruction

end BootImage
