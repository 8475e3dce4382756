import BootImage.Encoding.Stack
import BootImage.Encoding.System
import BootImage.Proofs.Decoding.Forms
import Mathlib.Tactic.FinCases

/-!
# What the opcodes stand for

For each opcode, and what an encoder puts behind it, the instruction that the opcode map gives. The
`rm` operand may be a register or a location, so that one lemma serves both, and a field is given by
the number that is written to it. Where an opcode has no reading for bytes, the width is that of
full-size operands.
-/

namespace BootImage

/-- A sign-extended byte stands for the number written to it. -/
theorem LittleEndian.toInt_ofInt_short {v : Int} (h : FitsByte v) (w : Width) :
    toInt (ofInt Width.byte.bytes v) % 2 ^ w.bits = v % 2 ^ w.bits := by
  rw [Width.toInt_ofInt (Width.reaches_byte.2 h)]

namespace OpcodeMap

open Encoding

attribute [local simp] Frame.decodedAs Frame.operand Row.fieldLength Slot.fieldLength accumulator
  LittleEndian.toInt_ofInt_emod

variable {mode : Mode} {w : Width} (rm : Rm) (n : Fin 8) (v : Int)

/-! ## Arithmetic and logic -/

theorem arithmetic_rm_reg (op : ArithmeticOp) :
    Frame.Denotes ⟨mode.fullWidth w, .primary (op.number * 8 + w.opcodeBit), n, some rm⟩ []
      ⟨.arithmetic op, w, [rm.operand w, .register (.general w n)]⟩ := by
  refine ⟨⟨.arithmetic op, w, [.rm w, .reg w]⟩, ?_, rfl, by simp⟩
  cases op <;> cases w <;> cases mode <;> rfl

theorem arithmetic_reg_rm (op : ArithmeticOp) :
    Frame.Denotes ⟨mode.fullWidth w, .primary (op.number * 8 + 2 + w.opcodeBit), n, some rm⟩ []
      ⟨.arithmetic op, w, [.register (.general w n), rm.operand w]⟩ := by
  refine ⟨⟨.arithmetic op, w, [.reg w, .rm w]⟩, ?_, rfl, by simp⟩
  cases op <;> cases w <;> cases mode <;> rfl

theorem arithmetic_accumulator_byte (op : ArithmeticOp) :
    Frame.Denotes ⟨w, .primary (op.number * 8 + 4), 0, none⟩
      (LittleEndian.ofInt Width.byte.bytes v)
      ⟨.arithmetic op, some .byte, [.register .al, .number (v % 2 ^ Width.byte.bits)]⟩ := by
  refine ⟨⟨.arithmetic op, some .byte, [accumulator .byte, .immediate .byte .byte]⟩, ?_, by simp,
    by simp⟩
  cases op <;> rfl

theorem arithmetic_accumulator (op : ArithmeticOp) :
    Frame.Denotes ⟨w, .primary (op.number * 8 + 5), 0, none⟩ (LittleEndian.ofInt w.bytes v)
      ⟨.arithmetic op, w, [.register (.general w 0), .number (v % 2 ^ w.bits)]⟩ := by
  refine ⟨⟨.arithmetic op, w, [accumulator w, .immediate w w]⟩, ?_, by simp, by simp⟩
  cases op <;> rfl

theorem arithmetic_constant_byte (op : ArithmeticOp) :
    Frame.Denotes ⟨w, .primary 0x80, op.number, some rm⟩ (LittleEndian.ofInt Width.byte.bytes v)
      ⟨.arithmetic op, some .byte, [rm.operand .byte, .number (v % 2 ^ Width.byte.bits)]⟩ := by
  refine ⟨⟨.arithmetic op, some .byte, [.rm .byte, .immediate .byte .byte]⟩, ?_, by simp, by simp⟩
  cases op <;> rfl

theorem arithmetic_constant (op : ArithmeticOp) :
    Frame.Denotes ⟨w, .primary 0x81, op.number, some rm⟩ (LittleEndian.ofInt w.bytes v)
      ⟨.arithmetic op, w, [rm.operand w, .number (v % 2 ^ w.bits)]⟩ := by
  refine ⟨⟨.arithmetic op, w, [.rm w, .immediate w w]⟩, ?_, by simp, by simp⟩
  cases op <;> rfl

theorem arithmetic_short (op : ArithmeticOp) (hv : FitsByte v) :
    Frame.Denotes ⟨w, .primary 0x83, op.number, some rm⟩ (LittleEndian.ofInt Width.byte.bytes v)
      ⟨.arithmetic op, w, [rm.operand w, .number (v % 2 ^ w.bits)]⟩ := by
  refine ⟨⟨.arithmetic op, w, [.rm w, .immediate .byte w]⟩, ?_, by simp, ?_⟩
  · cases op <;> rfl
  · simp [LittleEndian.toInt_ofInt_short hv]

theorem test_rm_reg :
    Frame.Denotes ⟨mode.fullWidth w, .primary (0x84 + w.opcodeBit), n, some rm⟩ []
      ⟨.test, w, [rm.operand w, .register (.general w n)]⟩ := by
  refine ⟨⟨.test, w, [.rm w, .reg w]⟩, ?_, rfl, by simp⟩
  cases w <;> cases mode <;> rfl

theorem test_accumulator :
    Frame.Denotes ⟨mode.fullWidth w, .primary (0xA8 + w.opcodeBit), 0, none⟩
      (LittleEndian.ofInt w.bytes v)
      ⟨.test, w, [.register (.general w 0), .number (v % 2 ^ w.bits)]⟩ := by
  refine ⟨⟨.test, w, [accumulator w, .immediate w w]⟩, ?_, by simp, by simp⟩
  cases w <;> cases mode <;> rfl

theorem test_constant :
    Frame.Denotes ⟨mode.fullWidth w, .primary (0xF6 + w.opcodeBit), 0, some rm⟩
      (LittleEndian.ofInt w.bytes v) ⟨.test, w, [rm.operand w, .number (v % 2 ^ w.bits)]⟩ := by
  refine ⟨⟨.test, w, [.rm w, .immediate w w]⟩, ?_, by simp, by simp⟩
  cases w <;> cases mode <;> rfl

/-- The one-operand operations of group 3. -/
theorem unary_rm {number : Nat} {op : Mnemonic} (h : unaryOf? number = some op) :
    Frame.Denotes ⟨mode.fullWidth w, .primary (0xF6 + w.opcodeBit), number, some rm⟩ []
      ⟨op, w, [rm.operand w]⟩ := by
  refine ⟨⟨op, w, [.rm w]⟩, ?_, rfl, by simp⟩
  unfold unaryOf? at h
  split at h <;> cases h <;> cases w <;> cases mode <;> rfl

theorem imul_reg_rm :
    Frame.Denotes ⟨w, .secondary 0xAF, n, some rm⟩ []
      ⟨.imul, w, [.register (.general w n), rm.operand w]⟩ :=
  ⟨⟨.imul, w, [.reg w, .rm w]⟩, rfl, rfl, by simp⟩

theorem imul_constant :
    Frame.Denotes ⟨w, .primary 0x69, n, some rm⟩ (LittleEndian.ofInt w.bytes v)
      ⟨.imul, w, [.register (.general w n), rm.operand w, .number (v % 2 ^ w.bits)]⟩ :=
  ⟨⟨.imul, w, [.reg w, .rm w, .immediate w w]⟩, rfl, by simp, by simp⟩

theorem imul_short (hv : FitsByte v) :
    Frame.Denotes ⟨w, .primary 0x6B, n, some rm⟩ (LittleEndian.ofInt Width.byte.bytes v)
      ⟨.imul, w, [.register (.general w n), rm.operand w, .number (v % 2 ^ w.bits)]⟩ :=
  ⟨⟨.imul, w, [.reg w, .rm w, .immediate .byte w]⟩, rfl, by simp,
    by simp [LittleEndian.toInt_ofInt_short hv]⟩

theorem step_rm (op : StepOp) :
    Frame.Denotes ⟨mode.fullWidth w, .primary (0xFE + w.opcodeBit), op.number, some rm⟩ []
      ⟨.step op, w, [rm.operand w]⟩ := by
  refine ⟨⟨.step op, w, [.rm w]⟩, ?_, rfl, by simp⟩
  cases op <;> cases w <;> cases mode <;> rfl

theorem step_register (op : StepOp) :
    Frame.Denotes ⟨w, .primary (0x40 + op.number * 8 + n), 0, none⟩ []
      ⟨.step op, w, [.register (.general w n)]⟩ := by
  refine ⟨⟨.step op, w, [.fixed (.general w n)]⟩, ?_, rfl, by simp⟩
  cases op <;> fin_cases n <;> rfl

theorem shift_one (op : ShiftOp) :
    Frame.Denotes ⟨mode.fullWidth w, .primary (0xD0 + w.opcodeBit), op.number, some rm⟩ []
      ⟨.shift op, w, [rm.operand w, .number 1]⟩ := by
  refine ⟨⟨.shift op, w, [.rm w, .constant 1]⟩, ?_, rfl, by simp⟩
  cases op <;> cases w <;> cases mode <;> rfl

theorem shift_cl (op : ShiftOp) :
    Frame.Denotes ⟨mode.fullWidth w, .primary (0xD2 + w.opcodeBit), op.number, some rm⟩ []
      ⟨.shift op, w, [rm.operand w, .register .cl]⟩ := by
  refine ⟨⟨.shift op, w, [.rm w, .fixed .cl]⟩, ?_, rfl, by simp⟩
  cases op <;> cases w <;> cases mode <;> rfl

theorem shift_constant (op : ShiftOp) :
    Frame.Denotes ⟨mode.fullWidth w, .primary (0xC0 + w.opcodeBit), op.number, some rm⟩
      (LittleEndian.ofInt Width.byte.bytes v)
      ⟨.shift op, w, [rm.operand w, .number (v % 2 ^ Width.byte.bits)]⟩ := by
  refine ⟨⟨.shift op, w, [.rm w, .immediate .byte .byte]⟩, ?_, by simp, by simp⟩
  cases op <;> cases w <;> cases mode <;> rfl

theorem setcc_rm (c : Condition) :
    Frame.Denotes ⟨w, .secondary (0x90 + c.code), 0, some rm⟩ []
      ⟨.setcc c, some .byte, [rm.operand .byte]⟩ := by
  refine ⟨⟨.setcc c, some .byte, [.rm .byte]⟩, ?_, rfl, by simp⟩
  cases c <;> rfl

/-! ## Data movement -/

theorem mov_rm_reg :
    Frame.Denotes ⟨mode.fullWidth w, .primary (0x88 + w.opcodeBit), n, some rm⟩ []
      ⟨.mov, w, [rm.operand w, .register (.general w n)]⟩ := by
  refine ⟨⟨.mov, w, [.rm w, .reg w]⟩, ?_, rfl, by simp⟩
  cases w <;> cases mode <;> rfl

theorem mov_reg_rm :
    Frame.Denotes ⟨mode.fullWidth w, .primary (0x8A + w.opcodeBit), n, some rm⟩ []
      ⟨.mov, w, [.register (.general w n), rm.operand w]⟩ := by
  refine ⟨⟨.mov, w, [.reg w, .rm w]⟩, ?_, rfl, by simp⟩
  cases w <;> cases mode <;> rfl

theorem segmentOf?_code (s : Segment) : segmentOf? s.code = some s := by
  cases s <;> rfl

theorem mov_segment_rm (s : Segment) :
    Frame.Denotes ⟨w, .primary 0x8E, s.code, some rm⟩ []
      ⟨.mov, some .word, [.register (.segment s), rm.operand .word]⟩ :=
  ⟨⟨.mov, some .word, [.segment, .rm .word]⟩, rfl, rfl, by simp [segmentOf?_code]⟩

theorem mov_register_segment (s : Segment) :
    Frame.Denotes ⟨w, .primary 0x8C, s.code, some (.register n)⟩ []
      ⟨.mov, w, [.register (.general w n), .register (.segment s)]⟩ :=
  ⟨⟨.mov, w, [.rm w, .segment]⟩, rfl, rfl, by simp [segmentOf?_code, Rm.operand]⟩

theorem mov_memory_segment (l : Location) (s : Segment) :
    Frame.Denotes ⟨w, .primary 0x8C, s.code, some (.memory l)⟩ []
      ⟨.mov, some .word, [.memory (some .word) l, .register (.segment s)]⟩ :=
  ⟨⟨.mov, some .word, [.rm .word, .segment]⟩, rfl, rfl, by simp [segmentOf?_code, Rm.operand]⟩

theorem mov_register_constant :
    Frame.Denotes ⟨mode.fullWidth w, .primary ((if w = .byte then 0xB0 else 0xB8) + n), 0, none⟩
      (LittleEndian.ofInt w.bytes v)
      ⟨.mov, w, [.register (.general w n), .number (v % 2 ^ w.bits)]⟩ := by
  refine ⟨⟨.mov, w, [.fixed (.general w n), .immediate w w]⟩, ?_, by simp, by simp⟩
  cases w <;> cases mode <;> fin_cases n <;> rfl

theorem mov_constant :
    Frame.Denotes ⟨mode.fullWidth w, .primary (0xC6 + w.opcodeBit), 0, some rm⟩
      (LittleEndian.ofInt w.bytes v) ⟨.mov, w, [rm.operand w, .number (v % 2 ^ w.bits)]⟩ := by
  refine ⟨⟨.mov, w, [.rm w, .immediate w w]⟩, ?_, by simp, by simp⟩
  cases w <;> cases mode <;> rfl

/-- The opcode of an extending move is that for a byte source or the one behind it. -/
def Extends (byteOpcode : Nat) (op : Mnemonic) : Prop :=
  byteOpcode = 0xB6 ∧ op = .movzx ∨ byteOpcode = 0xBE ∧ op = .movsx

theorem extending_reg_rm {byteOpcode : Nat} {op : Mnemonic} {source : Width}
    (h : Extends byteOpcode op) (hsource : source ≠ .dword) :
    Frame.Denotes ⟨w, .secondary (byteOpcode + source.opcodeBit), n, some rm⟩ []
      ⟨op, w, [.register (.general w n), rm.operand source]⟩ := by
  refine ⟨⟨op, w, [.reg w, .rm source]⟩, ?_, rfl, by simp⟩
  cases source with
  | byte => rcases h with ⟨rfl, rfl⟩ | ⟨rfl, rfl⟩ <;> rfl
  | word => rcases h with ⟨rfl, rfl⟩ | ⟨rfl, rfl⟩ <;> rfl
  | dword => exact absurd rfl hsource

theorem lea_reg_address (l : Location) :
    Frame.Denotes ⟨w, .primary 0x8D, n, some (.memory l)⟩ []
      ⟨.lea, w, [.register (.general w n), .memory none l]⟩ :=
  ⟨⟨.lea, w, [.reg w, .address]⟩, rfl, rfl, by simp [Rm.address?]⟩

theorem xchg_rm_reg :
    Frame.Denotes ⟨mode.fullWidth w, .primary (0x86 + w.opcodeBit), n, some rm⟩ []
      ⟨.xchg, w, [rm.operand w, .register (.general w n)]⟩ := by
  refine ⟨⟨.xchg, w, [.rm w, .reg w]⟩, ?_, rfl, by simp⟩
  cases w <;> cases mode <;> rfl

theorem xchg_accumulator (hn : n ≠ 0) :
    Frame.Denotes ⟨w, .primary (0x90 + n), 0, none⟩ []
      ⟨.xchg, w, [.register (.general w 0), .register (.general w n)]⟩ := by
  refine ⟨⟨.xchg, w, [accumulator w, .fixed (.general w n)]⟩, ?_, rfl, by simp⟩
  fin_cases n
  · exact absurd rfl hn
  all_goals rfl

theorem nop : Frame.Denotes ⟨w, .primary 0x90, 0, none⟩ [] ⟨.plain .nop, w, []⟩ :=
  ⟨⟨.plain .nop, w, []⟩, rfl, rfl, rfl⟩

/-! ## Stack -/

theorem push_segment (s : Segment) :
    Frame.Denotes ⟨w, pushSegment s, 0, none⟩ [] ⟨.push, w, [.register (.segment s)]⟩ := by
  refine ⟨⟨.push, w, [.fixed (.segment s)]⟩, ?_, rfl, by simp⟩
  cases s <;> rfl

theorem pop_segment {s : Segment} {opcode : Opcode} (h : popSegment? s = some opcode) :
    Frame.Denotes ⟨w, opcode, 0, none⟩ [] ⟨.pop, w, [.register (.segment s)]⟩ := by
  refine ⟨⟨.pop, w, [.fixed (.segment s)]⟩, ?_, rfl, by simp⟩
  cases s <;> cases h <;> rfl

theorem push_register :
    Frame.Denotes ⟨w, .primary (0x50 + n), 0, none⟩ [] ⟨.push, w, [.register (.general w n)]⟩ := by
  refine ⟨⟨.push, w, [.fixed (.general w n)]⟩, ?_, rfl, by simp⟩
  fin_cases n <;> rfl

theorem pop_register :
    Frame.Denotes ⟨w, .primary (0x58 + n), 0, none⟩ [] ⟨.pop, w, [.register (.general w n)]⟩ := by
  refine ⟨⟨.pop, w, [.fixed (.general w n)]⟩, ?_, rfl, by simp⟩
  fin_cases n <;> rfl

theorem pop_rm : Frame.Denotes ⟨w, .primary 0x8F, 0, some rm⟩ [] ⟨.pop, w, [rm.operand w]⟩ :=
  ⟨⟨.pop, w, [.rm w]⟩, rfl, rfl, by simp⟩

theorem push_constant :
    Frame.Denotes ⟨w, .primary 0x68, 0, none⟩ (LittleEndian.ofInt w.bytes v)
      ⟨.push, w, [.number (v % 2 ^ w.bits)]⟩ :=
  ⟨⟨.push, w, [.immediate w w]⟩, rfl, by simp, by simp⟩

theorem push_short (hv : FitsByte v) :
    Frame.Denotes ⟨w, .primary 0x6A, 0, none⟩ (LittleEndian.ofInt Width.byte.bytes v)
      ⟨.push, w, [.number (v % 2 ^ w.bits)]⟩ :=
  ⟨⟨.push, w, [.immediate .byte w]⟩, rfl, by simp, by simp [LittleEndian.toInt_ofInt_short hv]⟩

/-! ## Control flow -/

/-- The operations of group 5: branches and pushes with an `rm` operand. -/
theorem indirect_rm {number : Nat} {op : Mnemonic} (h : indirectOf? number = some op) :
    Frame.Denotes ⟨w, .primary 0xFF, number, some rm⟩ [] ⟨op, w, [rm.operand w]⟩ := by
  refine ⟨⟨op, w, [.rm w]⟩, ?_, rfl, by simp⟩
  show (indirectOf? number).map _ = _
  rw [h]
  rfl

theorem branch_distance {op : Mnemonic} (h : op.isBranch = true) (form : BranchForm)
    (hv : (op.distanceWidth form mode).Reaches v) :
    Frame.Denotes ⟨mode.width, op.branchOpcode form, 0, none⟩
      (LittleEndian.ofInt (op.distanceWidth form mode).bytes v)
      ⟨op, mode.width, [.distance v]⟩ := by
  refine ⟨⟨op, mode.width, [.distance (op.distanceWidth form mode)]⟩, ?_, by simp, ?_⟩
  · cases op <;> simp only [Mnemonic.isBranch, Bool.false_eq_true] at h <;> cases form
    case jcc.near c => cases c <;> rfl
    case jcc.short c => cases c <;> rfl
    all_goals rfl
  · simp [Width.toInt_ofInt hv]

theorem ret : Frame.Denotes ⟨w, .primary 0xC3, 0, none⟩ [] ⟨.ret, w, []⟩ :=
  ⟨⟨.ret, w, []⟩, rfl, rfl, rfl⟩

theorem ret_constant :
    Frame.Denotes ⟨w, .primary 0xC2, 0, none⟩ (LittleEndian.ofInt Width.word.bytes v)
      ⟨.ret, w, [.number (v % 2 ^ Width.word.bits)]⟩ :=
  ⟨⟨.ret, w, [.immediate .word .word]⟩, rfl, by simp, by simp⟩

theorem int_constant :
    Frame.Denotes ⟨w, .primary 0xCD, 0, none⟩ (LittleEndian.ofInt Width.byte.bytes v)
      ⟨.int, none, [.number (v % 2 ^ Width.byte.bits)]⟩ :=
  ⟨⟨.int, none, [.immediate .byte .byte]⟩, rfl, by simp, by simp⟩

/-! ## Input, output and system -/

theorem input_constant :
    Frame.Denotes ⟨mode.fullWidth w, .primary (0xE4 + w.opcodeBit), 0, none⟩
      (LittleEndian.ofInt Width.byte.bytes v)
      ⟨.input, w, [.register (.general w 0), .number (v % 2 ^ Width.byte.bits)]⟩ := by
  refine ⟨⟨.input, w, [accumulator w, .immediate .byte .byte]⟩, ?_, by simp, by simp⟩
  cases w <;> cases mode <;> rfl

theorem input_dx :
    Frame.Denotes ⟨mode.fullWidth w, .primary (0xE4 + 8 + w.opcodeBit), 0, none⟩ []
      ⟨.input, w, [.register (.general w 0), .register .dx]⟩ := by
  refine ⟨⟨.input, w, [accumulator w, .fixed .dx]⟩, ?_, rfl, by simp⟩
  cases w <;> cases mode <;> rfl

theorem output_constant :
    Frame.Denotes ⟨mode.fullWidth w, .primary (0xE6 + w.opcodeBit), 0, none⟩
      (LittleEndian.ofInt Width.byte.bytes v)
      ⟨.output, w, [.number (v % 2 ^ Width.byte.bits), .register (.general w 0)]⟩ := by
  refine ⟨⟨.output, w, [.immediate .byte .byte, accumulator w]⟩, ?_, by simp, by simp⟩
  cases w <;> cases mode <;> rfl

theorem output_dx :
    Frame.Denotes ⟨mode.fullWidth w, .primary (0xE6 + 8 + w.opcodeBit), 0, none⟩ []
      ⟨.output, w, [.register .dx, .register (.general w 0)]⟩ := by
  refine ⟨⟨.output, w, [.fixed .dx, accumulator w]⟩, ?_, rfl, by simp⟩
  cases w <;> cases mode <;> rfl

theorem table_address (op : TableOp) (l : Location) :
    Frame.Denotes ⟨w, .secondary 0x01, op.number, some (.memory l)⟩ []
      ⟨.table op, w, [.memory none l]⟩ := by
  refine ⟨⟨.table op, w, [.address]⟩, ?_, rfl, by simp [Rm.address?]⟩
  cases op <;> rfl

theorem plain_opcode (op : PlainOp) :
    Frame.Denotes ⟨mode.fullWidth (plainWidth op), .primary (plainOpcode op), 0, none⟩ []
      ⟨.plain op, op.widthIn mode, []⟩ := by
  refine ⟨⟨.plain op, op.widthIn mode, []⟩, ?_, rfl, rfl⟩
  cases op <;> cases mode <;> rfl

end OpcodeMap

end BootImage
