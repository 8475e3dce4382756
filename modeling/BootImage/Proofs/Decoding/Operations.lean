import BootImage.Encoding.Instruction
import BootImage.Proofs.Decoding.Rows

/-!
# Decoding data movement and arithmetic

For each encoder, the bytes that it gives are decoded as what the instruction means. The cases are
the operands that the encoder takes, and all others are refused. Each case names the form that the
encoder puts its operands into, and what the opcode stands for.

* `mov_decodes`, `movExtending_decodes`, `lea_decodes`, `xchg_decodes` — data movement.
* `arithmetic_decodes`, `test_decodes`, `shift_decodes`, … — arithmetic and logic.
-/

namespace BootImage

open Instruction

variable {cx : Context}

namespace Encoding

/-! ## Data movement -/

theorem mov_decodes (operands : List Operand) :
    Decodes cx.mode (moveMeaning operands cx) (mov ⟨.mov, operands⟩ cx) := by
  rcases operands with _ | ⟨dst, _ | ⟨src, _ | ⟨third, rest⟩⟩⟩
  · exact .error
  · cases dst <;> exact .error
  · cases dst with
    | register dst =>
      cases src with
      | register src =>
        cases dst with
        | segment s =>
          cases src with
          | segment s' => exact .error
          | general w n =>
            refine .ite (fun _ => .error) fun _ => ?_
            exact (framed_onRegister none _ (Register.segment s).code_lt w n).decodes
              (OpcodeMap.mov_segment_rm ..)
        | general w n =>
          cases src with
          | segment s =>
            refine .ite (fun _ => .error) fun hw => ?_
            exact ((framed_onRegister w _ (Register.segment s).code_lt w n).full hw).decodes
              (OpcodeMap.mov_register_segment ..)
          | general w' n' =>
            refine decodes_onPair fun w a b hdst hsrc => ?_
            cases hdst
            cases hsrc
            exact OpcodeMap.mov_rm_reg ..
      | memory m =>
        cases dst with
        | segment s =>
          exact (framed_onMemory cx none _ (Register.segment s).code_lt m).decodes
            (OpcodeMap.mov_segment_rm ..)
        | general w n =>
          exact (framed_onMemory cx w _ n.isLt m).decodes (OpcodeMap.mov_reg_rm ..)
      | immediate _ | label _ =>
        refine .bind fun w hw => ?_
        obtain ⟨n, rfl⟩ := general_of_generalWidth hw
        exact (framed_opcode w _).withImmediate (OpcodeMap.mov_register_constant ..)
    | memory m =>
      cases src with
      | register src =>
        cases src with
        | segment s =>
          exact (framed_onMemory cx none _ (Register.segment s).code_lt m).decodes
            (OpcodeMap.mov_memory_segment ..)
        | general w n =>
          exact (framed_onMemory cx w _ n.isLt m).decodes (OpcodeMap.mov_rm_reg ..)
      | memory m' => exact .error
      | immediate _ | label _ =>
        refine .bind fun w hw => ?_
        show Decodes _ (uniformMeaning .mov _ cx) _
        -- The width is that of the access, which no register tells.
        rw [uniformMeaning_memory .mov hw rfl]
        exact (framed_onMemory cx w _ (by decide) m).withImmediate (OpcodeMap.mov_constant ..)
    | immediate v => cases src <;> exact .error
    | label name => cases src <;> exact .error
  · cases dst <;> cases src <;> exact .error

theorem ne_byte_of_lt {source w : Width} (h : source.bits < w.bits) : w ≠ .byte := by
  rintro rfl
  cases source <;> simp [Width.bits] at h

theorem ne_dword_of_lt {source w : Width} (h : source.bits < w.bits) : source ≠ .dword := by
  rintro rfl
  cases w <;> simp [Width.bits] at h

theorem movExtending_decodes {byteOpcode : Nat} {op : Mnemonic}
    (h : OpcodeMap.Extends byteOpcode op) (operands : List Operand) :
    Decodes cx.mode
      (mixedMeaning op operands (fun src => Operand.commonWidth cx.mode [src]) cx)
      (movExtending byteOpcode ⟨op, operands⟩ cx) := by
  rcases operands with _ | ⟨dst, _ | ⟨src, _ | ⟨third, rest⟩⟩⟩
  · exact .error
  · cases dst <;> exact .error
  · cases dst with
    | register dst =>
      cases src with
      | register src =>
        refine .bind fun w hw => .bind fun source hsource => .ite (fun hlt => ?_) fun _ => .error
        obtain ⟨n, rfl⟩ := general_of_generalWidth hw
        obtain ⟨n', rfl⟩ := general_of_generalWidth hsource
        exact ((framed_onRegister w _ n.isLt source n').full (ne_byte_of_lt hlt)).decodes
          (OpcodeMap.extending_reg_rm _ _ h (ne_dword_of_lt hlt))
      | memory m =>
        refine .bind fun w hw => .bind fun source hsource => .ite (fun hlt => ?_) fun _ => .error
        obtain ⟨n, rfl⟩ := general_of_generalWidth hw
        rw [mixedMeaning, Operand.commonWidth_memory (memoryWidth_eq_ok.1 hsource) rfl]
        exact ((framed_onMemory cx w _ n.isLt m).full (ne_byte_of_lt hlt)).decodes
          (OpcodeMap.extending_reg_rm _ _ h (ne_dword_of_lt hlt))
      | _ => exact .bind fun _ _ => .error
    | _ => exact .error
  · cases dst <;> cases src <;> exact .error

theorem lea_decodes (operands : List Operand) :
    Decodes cx.mode (addressMeaning .lea operands cx) (lea ⟨.lea, operands⟩ cx) := by
  rcases operands with _ | ⟨dst, _ | ⟨src, _ | ⟨third, rest⟩⟩⟩
  · exact .error
  · cases dst <;> exact .error
  · cases dst with
    | register dst =>
      cases src with
      | memory m =>
        refine .bind fun w hw => .ite (fun _ => .error) fun hbyte => ?_
        obtain ⟨n, rfl⟩ := general_of_generalWidth hw
        exact ((framed_onMemory cx w _ n.isLt m).full hbyte).decodes
          (OpcodeMap.lea_reg_address ..)
      | _ => exact .error
    | _ => exact .error
  · cases dst <;> cases src <;> exact .error

/-- An exchange of registers of one width. -/
theorem xchg_registers_decodes (w : Width) (a b : Fin 8) :
    Decodes cx.mode
      (exchangeMeaning [.register (.general w a), .register (.general w b)] cx)
      (xchg ⟨.xchg, [.register (.general w a), .register (.general w b)]⟩ cx) := by
  refine .ite (fun h => absurd rfl h) fun _ => .ite (fun hacc => ?_) fun hacc => ?_
  · obtain ⟨hbyte, hacc⟩ := hacc
    -- The opcode names the register that is not the accumulator, or the accumulator itself.
    by_cases ha : a = 0
    · subst ha
      by_cases hb : b = 0
      · subst hb
        rw [exchangeMeaning, if_pos ⟨hbyte, rfl, rfl⟩]
        exact ((framed_opcode w _).full hbyte).decodes OpcodeMap.nop
      · rw [exchangeMeaning, if_neg (by simp [hb]), if_neg (by simp [hb])]
        exact ((framed_opcode w _).full hbyte).decodes (OpcodeMap.xchg_accumulator b hb)
    · have hcode : (Register.general w a).code ≠ 0 := fun h => ha (Fin.ext h)
      obtain rfl : b = 0 := Fin.ext (hacc.resolve_left hcode)
      rw [exchangeMeaning, if_neg (by simp [ha]), if_pos ⟨hbyte, rfl⟩, if_neg hcode]
      exact ((framed_opcode w _).full hbyte).decodes (OpcodeMap.xchg_accumulator a ha)
  · have hnone : ¬(w ≠ .byte ∧ b.val = 0) := fun h => hacc ⟨h.1, .inr h.2⟩
    rw [exchangeMeaning, if_neg (fun h => hnone ⟨h.1, h.2.2⟩), if_neg hnone]
    exact (framed_onRegister w _ b.isLt w a).decodes (OpcodeMap.xchg_rm_reg ..)

theorem xchg_decodes (operands : List Operand) :
    Decodes cx.mode (exchangeMeaning operands cx) (xchg ⟨.xchg, operands⟩ cx) := by
  rcases operands with _ | ⟨a, _ | ⟨b, _ | ⟨third, rest⟩⟩⟩
  · exact .error
  · cases a <;> exact .error
  · cases a with
    | register a =>
      cases b with
      | register b =>
        cases a with
        | segment s => exact .error
        | general w a =>
          cases b with
          | segment s => exact .error
          | general w' b =>
            -- Different widths are refused; of one width, the accumulator has a short form.
            by_cases hw : w' = w
            · subst hw
              exact xchg_registers_decodes w' a b
            · exact .ite (fun _ => .error) fun h => absurd (not_not.1 h) hw
      | memory m =>
        refine .bind fun w hw => ?_
        obtain ⟨n, rfl⟩ := general_of_generalWidth hw
        exact (framed_onMemory cx w _ n.isLt m).decodes (OpcodeMap.xchg_rm_reg ..)
      | _ => exact .error
    | memory m =>
      cases b with
      | register r =>
        refine .bind fun w hw => ?_
        obtain ⟨n, rfl⟩ := general_of_generalWidth hw
        exact (framed_onMemory cx w _ n.isLt m).decodes (OpcodeMap.xchg_rm_reg ..)
      | _ => exact .error
    | _ => cases b <;> exact .error
  · cases a <;> cases b <;> exact .error

/-! ## Arithmetic and logic -/

theorem arithmeticConstant_decodes (op : ArithmeticOp) (w : Width) (n : Fin 8) (imm : Immediate) :
    Decodes cx.mode
      ⟨.arithmetic op, w, [.register (.general w n), .number (imm.value % 2 ^ w.bits)]⟩
      (arithmeticConstant op (.general w n) w imm) := by
  have hnumber : op.number < 8 := by cases op <;> decide
  refine .ite (fun hbyte => ?byte) fun hbyte => ?full
  case byte =>
    subst hbyte
    refine .ite (fun hal => ?_) fun _ => ?_
    · cases hal
      exact (framed_opcode _ _).withImmediate (OpcodeMap.arithmetic_accumulator_byte ..)
    · exact (framed_onRegister _ _ hnumber _ n).withImmediate
        (OpcodeMap.arithmetic_constant_byte ..)
  case full =>
    -- The short form is preferred to that for the accumulator.
    refine .ite (fun hshort => ?_) fun _ => .ite (fun hacc => ?_) fun _ => ?_
    · exact ((framed_onRegister w _ hnumber w n).full hbyte).withImmediate
        (OpcodeMap.arithmetic_short _ _ op (Immediate.fitsByte_of_isShort hshort))
    · obtain rfl : n = 0 := Fin.ext hacc
      exact ((framed_opcode w _).full hbyte).withImmediate (OpcodeMap.arithmetic_accumulator ..)
    · exact ((framed_onRegister w _ hnumber w n).full hbyte).withImmediate
        (OpcodeMap.arithmetic_constant ..)

/-- An arithmetic operation on memory and a number. -/
theorem arithmeticMemory_decodes (op : ArithmeticOp) (w : Width) (m : Memory) (imm : Immediate) :
    Decodes cx.mode
      ⟨.arithmetic op, w,
        [.memory w (m.location cx.mode cx.symbol), .number (imm.value % 2 ^ w.bits)]⟩
      (if w = .byte then do
        let e ← onMemory cx w (.primary 0x80) op.number m
        e.withImmediate .byte imm.value
      else if imm.isShort then do
        let e ← onMemory cx w (.primary 0x83) op.number m
        e.withImmediate .byte imm.value
      else do
        let e ← onMemory cx w (.primary 0x81) op.number m
        e.withImmediate w imm.value) := by
  have hnumber : op.number < 8 := by cases op <;> decide
  -- Bytes, numbers that fit a sign-extended byte, and all others have an opcode each.
  refine .ite (fun hbyte => ?_) fun hbyte => .ite (fun hshort => ?_) fun _ => ?_
  · subst hbyte
    exact (framed_onMemory cx _ _ hnumber m).withImmediate (OpcodeMap.arithmetic_constant_byte ..)
  · exact ((framed_onMemory cx w _ hnumber m).full hbyte).withImmediate
      (OpcodeMap.arithmetic_short _ _ op (Immediate.fitsByte_of_isShort hshort))
  · exact ((framed_onMemory cx w _ hnumber m).full hbyte).withImmediate
      (OpcodeMap.arithmetic_constant ..)

theorem arithmetic_decodes (op : ArithmeticOp) (operands : List Operand) :
    Decodes cx.mode (uniformMeaning (.arithmetic op) operands cx)
      (arithmetic op ⟨.arithmetic op, operands⟩ cx) := by
  -- Three shapes: the register to `rm`, `rm` to the register, and a number to `rm`.
  rcases operands with _ | ⟨dst, _ | ⟨src, _ | ⟨third, rest⟩⟩⟩
  · exact .error
  · cases dst <;> exact .error
  · cases dst with
    | register dst =>
      cases src with
      | register src =>
        refine decodes_onPair fun w a b hdst hsrc => ?_
        subst hdst hsrc
        exact OpcodeMap.arithmetic_rm_reg ..
      | memory m =>
        refine .bind fun w hw => ?_
        obtain ⟨n, rfl⟩ := general_of_generalWidth hw
        exact (framed_onMemory cx w _ n.isLt m).decodes (OpcodeMap.arithmetic_reg_rm ..)
      | immediate _ | label _ =>
        refine .bind fun w hw => ?_
        obtain ⟨n, rfl⟩ := general_of_generalWidth hw
        exact arithmeticConstant_decodes op w n _
    | memory m =>
      cases src with
      | register src =>
        refine .bind fun w hw => ?_
        obtain ⟨n, rfl⟩ := general_of_generalWidth hw
        exact (framed_onMemory cx w _ n.isLt m).decodes (OpcodeMap.arithmetic_rm_reg ..)
      | memory m' => exact .error
      | immediate _ | label _ =>
        refine .bind fun w hw => ?_
        rw [uniformMeaning_memory _ hw rfl]
        exact arithmeticMemory_decodes op w m _
    | immediate v => cases src <;> exact .error
    | label name => cases src <;> exact .error
  · cases dst <;> cases src <;> exact .error

/-- A test of a register against a number. -/
theorem testConstant_decodes (w : Width) (n : Fin 8) (v : Int) :
    Decodes cx.mode ⟨.test, w, [.register (.general w n), .number (v % 2 ^ w.bits)]⟩
      (if (Register.general w n).code = 0 then
        withImmediate { width := w, opcode := .primary (0xA8 + w.opcodeBit) } w v
      else (onRegister w (.primary (0xF6 + w.opcodeBit)) 0 (.general w n)).withImmediate w v) := by
  refine .ite (fun hacc => ?_) fun _ => ?_
  · obtain rfl : n = 0 := Fin.ext hacc
    exact (framed_opcode w _).withImmediate (OpcodeMap.test_accumulator ..)
  · exact (framed_onRegister w _ (by decide) w n).withImmediate (OpcodeMap.test_constant ..)

theorem test_decodes (operands : List Operand) :
    Decodes cx.mode (uniformMeaning .test (Operand.memoryFirst operands) cx)
      (test ⟨.test, operands⟩ cx) := by
  -- A memory operand goes first, whichever way round the two are given.
  rcases operands with _ | ⟨dst, _ | ⟨src, _ | ⟨third, rest⟩⟩⟩
  · exact .error
  · cases dst <;> exact .error
  · cases dst with
    | register dst =>
      cases src with
      | register src =>
        refine decodes_onPair fun w a b hdst hsrc => ?_
        subst hdst hsrc
        exact OpcodeMap.test_rm_reg ..
      | memory m =>
        refine .bind fun w hw => ?_
        obtain ⟨n, rfl⟩ := general_of_generalWidth hw
        exact (framed_onMemory cx w _ n.isLt m).decodes (OpcodeMap.test_rm_reg ..)
      | immediate _ | label _ =>
        refine .bind fun w hw => ?_
        obtain ⟨n, rfl⟩ := general_of_generalWidth hw
        exact testConstant_decodes w n _
    | memory m =>
      cases src with
      | register src =>
        refine .bind fun w hw => ?_
        obtain ⟨n, rfl⟩ := general_of_generalWidth hw
        exact (framed_onMemory cx w _ n.isLt m).decodes (OpcodeMap.test_rm_reg ..)
      | memory m' => exact .error
      | immediate _ | label _ =>
        refine .bind fun w hw => ?_
        show Decodes _ (uniformMeaning .test [.memory m, _] cx) _
        rw [uniformMeaning_memory _ hw rfl]
        exact (framed_onMemory cx w _ (by decide) m).withImmediate (OpcodeMap.test_constant ..)
    | immediate v => cases src <;> exact .error
    | label name => cases src <;> exact .error
  · cases dst <;> cases src <;> exact .error

/-- The one-operand operations of group 3. -/
theorem unary_decodes {number : Nat} {op : Mnemonic} (h : OpcodeMap.unaryOf? number = some op)
    (hnumber : number < 8) (operands : List Operand) :
    Decodes cx.mode (uniformMeaning op operands cx) (unary number ⟨op, operands⟩ cx) := by
  rcases operands with _ | ⟨dst, _ | ⟨src, rest⟩⟩
  · exact .error
  · cases dst with
    | register r =>
      refine .bind fun w hw => ?_
      obtain ⟨n, rfl⟩ := general_of_generalWidth hw
      exact (framed_onRegister w _ hnumber w n).decodes (OpcodeMap.unary_rm _ h)
    | memory m =>
      refine .bind fun w hw => ?_
      rw [uniformMeaning_memory _ hw rfl]
      exact (framed_onMemory cx w _ hnumber m).decodes (OpcodeMap.unary_rm _ h)
    | _ => exact .error
  · cases dst <;> exact .error

theorem imulWidth_eq_ok {i : Instruction} {r : Register} {w : Width} (h : imulWidth i r = .ok w) :
    w ≠ .byte ∧ ∃ n, r = .general w n := by
  obtain ⟨w', hw, h⟩ := bind_eq_ok.1 h
  split at h
  case isTrue => cases h
  case isFalse hbyte =>
    cases h
    exact ⟨hbyte, general_of_generalWidth hw⟩

/-- A multiplication by a constant, which takes one byte if it can. -/
theorem imulConstant_decodes {w : Width} {n : Fin 8} {rm : Rm} {v : Int}
    {x : Opcode → Except AssemblyError Encoding}
    (hx : ∀ opcode, Framed cx.mode ⟨w, opcode, n, some rm⟩ (x opcode)) :
    Decodes cx.mode
      ⟨.imul, w, [.register (.general w n), rm.operand w, .number (v % 2 ^ w.bits)]⟩
      (x (.primary (if Immediate.isShort { value := v } then 0x6B else 0x69)) >>= fun e =>
        e.withImmediate (if Immediate.isShort { value := v } then .byte else w) v) := by
  by_cases hshort : Immediate.isShort { value := v } = true
  · simp only [if_pos hshort]
    exact (hx _).withImmediate
      (OpcodeMap.imul_short _ _ v (Immediate.fitsByte_of_isShort hshort))
  · simp only [if_neg hshort]
    exact (hx _).withImmediate (OpcodeMap.imul_constant ..)

theorem imul_decodes (operands : List Operand) :
    Decodes cx.mode (uniformMeaning .imul operands cx) (imul ⟨.imul, operands⟩ cx) := by
  -- One, two or three operands are three instructions with opcodes of their own.
  rcases operands with _ | ⟨dst, _ | ⟨src, _ | ⟨third, _ | ⟨fourth, rest⟩⟩⟩⟩
  · exact .error
  · exact unary_decodes rfl (by decide) [dst]
  · cases dst with
    | register dst =>
      refine .bind fun w hw => ?_
      -- Neither form with a destination has bytes as operands.
      obtain ⟨hbyte, n, rfl⟩ := imulWidth_eq_ok hw
      cases src with
      | register src =>
        refine decodes_onPair fun w' a b hrm hreg => ?_
        cases hrm
        cases hreg
        rw [cx.mode.fullWidth_of_ne hbyte]
        exact OpcodeMap.imul_reg_rm ..
      | memory m =>
        exact ((framed_onMemory cx w _ n.isLt m).full hbyte).decodes (OpcodeMap.imul_reg_rm ..)
      | _ => exact .error
    | _ => exact .error
  · cases dst with
    | register dst =>
      cases third with
      | immediate v =>
        refine .bind fun w hw => ?_
        obtain ⟨hbyte, n, rfl⟩ := imulWidth_eq_ok hw
        cases src with
        | register src =>
          refine .bind fun e he => ?_
          obtain ⟨w', a, b, rfl, hreg, rfl⟩ := onPair_eq_ok.1 he
          cases hreg
          have hframed (opcode : Opcode) : Framed cx.mode _ _ :=
            (framed_onRegister w opcode n.isLt w a).full hbyte
          exact imulConstant_decodes hframed
        | memory m =>
          exact imulConstant_decodes fun opcode => (framed_onMemory cx w opcode n.isLt m).full hbyte
        | _ => exact .error
      | _ => exact .error
    | _ => cases third <;> exact .error
  · cases dst <;> cases third <;> exact .error

theorem step_decodes (op : StepOp) (operands : List Operand) :
    Decodes cx.mode (uniformMeaning (.step op) operands cx)
      (step op ⟨.step op, operands⟩ cx) := by
  have hnumber : op.number < 8 := by cases op <;> decide
  rcases operands with _ | ⟨dst, _ | ⟨src, rest⟩⟩
  · exact .error
  · cases dst with
    | register r =>
      refine .bind fun w hw => .ite (fun hbyte => ?_) fun hbyte => ?_
      · obtain ⟨n, rfl⟩ := general_of_generalWidth hw
        subst hbyte
        exact (framed_onRegister _ _ hnumber _ n).decodes (OpcodeMap.step_rm ..)
      · obtain ⟨n, rfl⟩ := general_of_generalWidth hw
        exact ((framed_opcode w _).full hbyte).decodes (OpcodeMap.step_register ..)
    | memory m =>
      refine .bind fun w hw => ?_
      rw [uniformMeaning_memory _ hw rfl]
      exact (framed_onMemory cx w _ hnumber m).decodes (OpcodeMap.step_rm ..)
    | _ => exact .error
  · cases dst <;> exact .error

/-- How far a shift goes. -/
theorem shiftCount_eq_ok {i : Instruction} {count : Operand} {byteOpcode : Nat}
    {constant : Option Int} (h : shiftCount i count = .ok (byteOpcode, constant)) :
    (count = .register .cl ∧ byteOpcode = 0xD2 ∧ constant = none) ∨
      (count = .immediate 1 ∧ byteOpcode = 0xD0 ∧ constant = none) ∨
        ∃ v, count = .immediate v ∧ byteOpcode = 0xC0 ∧ constant = some v := by
  unfold shiftCount at h
  split at h
  · cases h
    exact .inl ⟨rfl, rfl, rfl⟩
  · rename_i v
    split at h
    case isTrue hone =>
      cases h
      exact .inr (.inl ⟨by rw [hone], rfl, rfl⟩)
    case isFalse =>
      obtain ⟨-, -, h⟩ := bind_eq_ok.1 h
      cases h
      exact .inr (.inr ⟨v, rfl, rfl, rfl⟩)
  · cases h

/-- A shift of a register or of memory. -/
theorem shift_rm_decodes (op : ShiftOp) {i : Instruction} {count : Operand}
    {amount : Nat × Option Int} (h : shiftCount i count = .ok amount) {w : Width} {rm : Rm}
    {x : Except AssemblyError Encoding}
    (hx : Framed cx.mode
      ⟨cx.mode.fullWidth w, .primary (amount.1 + w.opcodeBit), op.number, some rm⟩ x) :
    Decodes cx.mode ⟨.shift op, w, [rm.operand w, count.decoded cx .byte]⟩
      (x >>= fun e => match amount.2 with
        | none => pure e
        | some v => e.withImmediate .byte v) := by
  obtain ⟨byteOpcode, constant⟩ := amount
  rcases shiftCount_eq_ok h with ⟨rfl, rfl, rfl⟩ | ⟨rfl, rfl, rfl⟩ | ⟨v, rfl, rfl, rfl⟩
  · simp only [bind_pure]
    exact hx.decodes (OpcodeMap.shift_cl ..)
  · simp only [bind_pure]
    exact hx.decodes (OpcodeMap.shift_one ..)
  · exact hx.withImmediate (OpcodeMap.shift_constant ..)

theorem shift_decodes (op : ShiftOp) (operands : List Operand) :
    Decodes cx.mode (mixedMeaning (.shift op) operands (fun _ => .byte) cx)
      (shift op ⟨.shift op, operands⟩ cx) := by
  have hnumber : op.number < 8 := by cases op <;> decide
  rcases operands with _ | ⟨dst, _ | ⟨count, _ | ⟨third, rest⟩⟩⟩
  · exact .error
  · exact .error
  · cases dst with
    | register r =>
      refine .bind fun w hw => .bind fun amount hcount => ?_
      obtain ⟨n, rfl⟩ := general_of_generalWidth hw
      exact shift_rm_decodes op hcount (framed_onRegister w _ hnumber w n)
    | memory m =>
      refine .bind fun w hw => .bind fun amount hcount => ?_
      rw [mixedMeaning, Operand.commonWidth_memory (memoryWidth_eq_ok.1 hw) rfl]
      exact shift_rm_decodes op hcount (framed_onMemory cx w _ hnumber m)
    | _ => exact .error
  · exact .error

theorem setcc_decodes (c : Condition) (operands : List Operand) :
    Decodes cx.mode (uniformMeaning (.setcc c) operands cx)
      (setcc c ⟨.setcc c, operands⟩ cx) := by
  rcases operands with _ | ⟨dst, _ | ⟨second, rest⟩⟩
  · exact .error
  · cases dst with
    | register r =>
      refine .ite (fun hbyte => ?_) fun _ => .error
      cases r with
      | segment s => cases hbyte
      | general w n =>
        cases hbyte
        exact (framed_onRegister _ _ (by decide) _ n).decodes (OpcodeMap.setcc_rm ..)
    | memory m =>
      refine .ite (fun hbyte => ?_) fun _ => .error
      have hw : Instruction.memoryWidth ⟨.setcc c, [.memory m]⟩ m = .ok .byte :=
        memoryWidth_eq_ok.2 (by rw [hbyte]; rfl)
      rw [uniformMeaning_memory _ hw rfl]
      exact (framed_onMemory cx _ _ (by decide) m).decodes (OpcodeMap.setcc_rm ..)
    | _ => exact .error
  · cases dst <;> exact .error

end Encoding

end BootImage
