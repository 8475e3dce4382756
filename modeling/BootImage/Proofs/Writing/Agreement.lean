import BootImage.Proofs.Decoding.Operations
import BootImage.Proofs.Writing.Steps

/-!
# Writing agrees with encoding

Written piece by piece, an instruction comes out as it is encoded, and it is refused for the same
reason, however much of it is in the buffer by then. The parts add up to at most 14 bytes, so the
buffer is never full, and every number in an opcode or an addressing byte fits its byte.

* `Fronted` — an encoding without its field, and what writes it.
* `Written` — a whole encoding, and what writes it.
* `mov_written`, `arithmetic_written`, … — one lemma for each encoder.
* `Instruction.write_agrees` — every instruction.
-/

namespace BootImage

/-- An encoding with the opcode `o` and without a field, and what writes it. -/
structure Fronted (cx : Context) (o : Opcode) (w : Writer Unit)
    (x : Except AssemblyError Encoding) : Prop where
  writes : Writes (9 + o.length) w (x >>= fun e => .ok (e.bytes cx.mode))
  immediate_eq : ∀ e, x = .ok e → e.immediate = []

/-- An encoding of at most 14 bytes, and what writes it. -/
def Written (cx : Context) (w : Writer Unit) (x : Except AssemblyError Encoding) : Prop :=
  Writes 14 w (x >>= fun e => .ok (e.bytes cx.mode))

theorem Opcode.length_le (o : Opcode) : o.length ≤ 2 := by
  cases o <;> simp only [length] <;> decide

variable {cx : Context} {o : Opcode} {w w' : Writer Unit} {x x' : Except AssemblyError Encoding}
  {width : Option Width} {α : Type}

namespace Fronted

theorem opcode (ho : o.number < 256) : Fronted cx o (Writer.opcode o) (.ok { opcode := o }) where
  writes := by
    refine ((Writes.opcode ho).congr (congrArg Except.ok ?_)).mono (by omega)
    rw [Encoding.bytes_opcode, List.append_nil]
    rfl
  immediate_eq := by
    rintro e ⟨⟩
    rfl

theorem bare (ho : o.number < 256) :
    Fronted cx o (Writer.bare cx width o) (.ok { width, opcode := o }) where
  writes := (Writes.bare cx width ho).mono (by omega)
  immediate_eq := by
    rintro e ⟨⟩
    rfl

variable {reg : Nat} (ho : o.number < 256) (hreg : reg < 8)
include ho hreg

theorem onRegister (rm : Register) :
    Fronted cx o (Writer.onRegister cx width o reg rm)
      (.ok (Encoding.onRegister width o reg rm)) where
  writes := (Writes.onRegister hreg cx width ho rm).mono (by omega)
  immediate_eq := by
    rintro e ⟨⟩
    rfl

theorem onMemory (m : Memory) :
    Fronted cx o (Writer.onMemory cx width o reg m) (Encoding.onMemory cx width o reg m) where
  writes := Writes.onMemory hreg cx width ho m
  immediate_eq e he := by
    obtain ⟨segment, -, he⟩ := bind_eq_ok.1 he
    obtain ⟨size, -, he⟩ := bind_eq_ok.1 he
    obtain ⟨a, -, he⟩ := bind_eq_ok.1 he
    cases he
    rfl

omit hreg in
theorem onPair {i : Instruction} (rm reg : Register) :
    Fronted cx o (Writer.onPair i cx o rm reg) (Encoding.onPair i o rm reg) where
  writes := by
    unfold Writer.onPair Encoding.onPair
    rw [bind_assoc]
    refine .check fun width _ => ?_
    rw [bind_assoc]
    refine .check fun width' _ => ?_
    by_cases hwidth : width' = width
    · rw [if_pos hwidth, if_pos hwidth]
      exact (onRegister ho reg.code_lt rm).writes
    · rw [if_neg hwidth, if_neg hwidth]
      exact .refuse
  immediate_eq e he := by
    obtain ⟨w, a, b, -, -, rfl⟩ := Encoding.onPair_eq_ok.1 he
    rfl

omit ho hreg in
theorem written (h : Fronted cx o w x) : Written cx w x := by
  have ho := o.length_le
  exact h.writes.mono (by omega)

end Fronted

/-- A field behind the other parts of an encoding comes behind its bytes. -/
theorem Encoding.bytes_immediate {e : Encoding} (he : e.immediate = []) (mode : Mode)
    (field : List UInt8) : e.bytes mode ++ field = { e with immediate := field }.bytes mode := by
  unfold Encoding.bytes Encoding.body
  rw [he, List.append_nil, List.append_assoc]
  rfl

theorem Fronted.withImmediate {n : Nat} (h : Fronted cx (.primary n) w x) (width : Width)
    (v : Int) :
    Written cx (w >>= fun _ => Writer.field width v) (x >>= fun e => e.withImmediate width v) := by
  have hwidth := width.bytes_le
  refine ((h.writes.seq (.field width v)).congr ?_).mono (show 9 + 1 + width.bytes ≤ 14 by omega)
  cases hx : x with
  | error err => rfl
  | ok e =>
    unfold Encoding.withImmediate
    cases width.field v with
    | error err => rfl
    | ok field => exact congrArg Except.ok (Encoding.bytes_immediate (h.immediate_eq e hx) _ _)

/-- The same for the constant of a shift, if there is one. -/
theorem Fronted.constant {n : Nat} (h : Fronted cx (.primary n) w x) (v : Option Int) :
    Written cx (w >>= fun _ => Writer.shiftConstant v)
      (x >>= fun e => match v with
        | none => pure e
        | some v => e.withImmediate .byte v) := by
  cases v with
  | none =>
    rw [bind_pure]
    exact (bind_pure_unit (x := w)).symm ▸ h.written
  | some v => exact h.withImmediate .byte v

namespace Written

theorem error {err : AssemblyError} : Written cx (Writer.check (.error err)) (.error err) :=
  Writes.refuse

theorem check {step : Except AssemblyError α} {f : α → Writer Unit}
    {g : α → Except AssemblyError Encoding} (h : ∀ a, step = .ok a → Written cx (f a) (g a)) :
    Written cx (Writer.check step >>= f) (step >>= g) := by
  unfold Written
  rw [bind_assoc]
  exact .check h

theorem ite {p : Prop} [Decidable p] (h : p → Written cx w x) (h' : ¬p → Written cx w' x') :
    Written cx (if p then w else w') (if p then x else x') := by
  by_cases hp : p
  · simpa only [if_pos hp] using h hp
  · simpa only [if_neg hp] using h' hp

end Written

/-! ## Numbers in opcodes -/

/-- A register takes the three lowest bits of an opcode. -/
theorem Register.opcode_lt {n : Nat} (r : Register) (hn : n < 249) : n + r.code < 256 := by
  have hr := r.code_lt
  omega

/-- The width takes the lowest bit of an opcode. -/
theorem Width.opcode_lt {n : Nat} (w : Width) (hn : n < 255) : n + w.opcodeBit < 256 := by
  cases w <;> simp only [opcodeBit] <;> omega

theorem Condition.opcode_lt {n : Nat} (c : Condition) (hn : n < 241) : n + c.code < 256 := by
  have hc := c.code_lt
  omega

theorem ArithmeticOp.number_lt (op : ArithmeticOp) : op.number < 8 := by
  cases op <;> decide

theorem UnaryOp.number_lt (op : UnaryOp) : op.number < 8 := by
  cases op <;> decide

theorem StepOp.number_lt (op : StepOp) : op.number < 2 := by
  cases op <;> decide

theorem ShiftOp.number_lt (op : ShiftOp) : op.number < 8 := by
  cases op <;> decide

theorem TableOp.number_lt (op : TableOp) : op.number < 8 := by
  cases op <;> decide

namespace Encoding

variable {i : Instruction}

/-! ## Data movement -/

theorem movRegisters_written (dst src : Register) :
    Written cx (Writer.movRegisters i cx dst src) (movRegisters i dst src) := by
  refine .ite (fun _ => .ite (fun _ => .error) fun _ => ?_) fun _ =>
    .ite (fun _ => .ite (fun _ => .error) fun _ => ?_) fun _ => ?_
  · exact (Fronted.onRegister (by decide) dst.code_lt src).written
  · exact (Fronted.onRegister (by decide) src.code_lt dst).written
  · exact (Fronted.onPair (dst.width.opcode_lt (by decide)) dst src).written

theorem mov_written : Written cx (Writer.mov i cx) (mov i cx) := by
  unfold Writer.mov mov
  rcases i.arguments cx with _ | ⟨dst, _ | ⟨src, _ | ⟨third, rest⟩⟩⟩
  · exact .error
  · cases dst <;> exact .error
  · cases dst with
    | register dst =>
      cases src with
      | register src => exact movRegisters_written dst src
      | memory m =>
        refine .ite (fun _ => ?_) fun _ => ?_
        · exact (Fronted.onMemory (by decide) dst.code_lt m).written
        · exact (Fronted.onMemory (dst.width.opcode_lt (by decide)) dst.code_lt m).written
      | immediate imm =>
        refine .check fun w _ => Fronted.withImmediate (.bare (dst.opcode_lt ?_)) w imm.value
        split <;> decide
    | memory m =>
      cases src with
      | register src =>
        refine .ite (fun _ => ?_) fun _ => ?_
        · exact (Fronted.onMemory (by decide) src.code_lt m).written
        · exact (Fronted.onMemory (src.width.opcode_lt (by decide)) src.code_lt m).written
      | memory m' => exact .error
      | immediate imm =>
        exact .check fun w _ =>
          Fronted.withImmediate (.onMemory (w.opcode_lt (by decide)) (by decide) m) w imm.value
    | immediate imm => cases src <;> exact .error
  · cases dst <;> cases src <;> exact .error

theorem movExtending_written {byteOpcode : Nat} (hopcode : byteOpcode < 255) :
    Written cx (Writer.movExtending byteOpcode i cx) (movExtending byteOpcode i cx) := by
  unfold Writer.movExtending movExtending
  rcases i.operands with _ | ⟨dst, _ | ⟨src, _ | ⟨third, rest⟩⟩⟩
  · exact .error
  · cases dst <;> exact .error
  · cases dst with
    | register dst =>
      cases src with
      | register src =>
        refine .check fun w _ => .check fun source _ => .ite (fun _ => ?_) fun _ => .error
        exact Fronted.written (.onRegister (o := .secondary _) (source.opcode_lt hopcode)
          dst.code_lt src)
      | memory m =>
        refine .check fun w _ => .check fun source _ => .ite (fun _ => ?_) fun _ => .error
        exact Fronted.written (.onMemory (o := .secondary _) (source.opcode_lt hopcode)
          dst.code_lt m)
      | _ => exact .check fun _ _ => .error
    | _ => exact .error
  · cases dst <;> cases src <;> exact .error

theorem lea_written : Written cx (Writer.lea i cx) (lea i cx) := by
  unfold Writer.lea lea
  rcases i.operands with _ | ⟨dst, _ | ⟨src, _ | ⟨third, rest⟩⟩⟩
  · exact .error
  · cases dst <;> exact .error
  · cases dst with
    | register dst =>
      cases src with
      | memory m =>
        exact .check fun w _ => .ite (fun _ => .error) fun _ =>
          (Fronted.onMemory (by decide) dst.code_lt m).written
      | _ => exact .error
    | _ => exact .error
  · cases dst <;> cases src <;> exact .error

theorem xchg_written : Written cx (Writer.xchg i cx) (xchg i cx) := by
  unfold Writer.xchg xchg
  rcases i.operands with _ | ⟨a, _ | ⟨b, _ | ⟨third, rest⟩⟩⟩
  · exact .error
  · cases a <;> exact .error
  · cases a with
    | register a =>
      cases b with
      | register b =>
        refine .check fun w _ => .check fun w' _ => .ite (fun _ => .error) fun _ =>
          .ite (fun _ => ?_) fun _ => ?_
        · exact (Fronted.bare (Register.opcode_lt _ (by decide))).written
        · exact (Fronted.onRegister (w.opcode_lt (by decide)) b.code_lt a).written
      | memory m =>
        exact .check fun w _ => (Fronted.onMemory (w.opcode_lt (by decide)) a.code_lt m).written
      | _ => exact .error
    | memory m =>
      cases b with
      | register b =>
        exact .check fun w _ => (Fronted.onMemory (w.opcode_lt (by decide)) b.code_lt m).written
      | _ => exact .error
    | _ => cases b <;> exact .error
  · cases a <;> cases b <;> exact .error

/-! ## Arithmetic and logic -/

theorem arithmeticConstant_written (op : ArithmeticOp) (dst : Register) (w : Width)
    (imm : Immediate) :
    Written cx (Writer.arithmeticConstant op cx dst w imm) (arithmeticConstant op dst w imm) := by
  have hop := op.number_lt
  refine .ite (fun _ => .ite (fun _ => ?_) fun _ => ?_) fun _ =>
    .ite (fun _ => ?_) fun _ => .ite (fun _ => ?_) fun _ => ?_
  · exact Fronted.withImmediate (.bare (show op.number * 8 + 4 < 256 by omega)) .byte imm.value
  · exact Fronted.withImmediate (.onRegister (by decide) hop dst) .byte imm.value
  · exact Fronted.withImmediate (.onRegister (by decide) hop dst) .byte imm.value
  · exact Fronted.withImmediate (.bare (show op.number * 8 + 5 < 256 by omega)) w imm.value
  · exact Fronted.withImmediate (.onRegister (by decide) hop dst) w imm.value

theorem arithmetic_written (op : ArithmeticOp) :
    Written cx (Writer.arithmetic op i cx) (arithmetic op i cx) := by
  have hop := op.number_lt
  unfold Writer.arithmetic arithmetic
  rcases i.arguments cx with _ | ⟨dst, _ | ⟨src, _ | ⟨third, rest⟩⟩⟩
  · exact .error
  · cases dst <;> exact .error
  · cases dst with
    | register dst =>
      cases src with
      | register src => exact (Fronted.onPair (dst.width.opcode_lt (by omega)) dst src).written
      | memory m =>
        exact .check fun w _ => (Fronted.onMemory (w.opcode_lt (by omega)) dst.code_lt m).written
      | immediate imm => exact .check fun w _ => arithmeticConstant_written op dst w imm
    | memory m =>
      cases src with
      | register src =>
        exact .check fun w _ => (Fronted.onMemory (w.opcode_lt (by omega)) src.code_lt m).written
      | memory m' => exact .error
      | immediate imm =>
        refine .check fun w _ => .ite (fun _ => ?_) fun _ => .ite (fun _ => ?_) fun _ => ?_
        all_goals exact Fronted.withImmediate (.onMemory (by decide) hop m) _ imm.value
    | immediate imm => cases src <;> exact .error
  · cases dst <;> cases src <;> exact .error

theorem test_written : Written cx (Writer.test i cx) (test i cx) := by
  unfold Writer.test test
  rcases i.arguments cx with _ | ⟨dst, _ | ⟨src, _ | ⟨third, rest⟩⟩⟩
  · exact .error
  · cases dst <;> exact .error
  · cases dst with
    | register dst =>
      cases src with
      | register src => exact (Fronted.onPair (dst.width.opcode_lt (by decide)) dst src).written
      | memory m =>
        exact .check fun w _ => (Fronted.onMemory (w.opcode_lt (by decide)) dst.code_lt m).written
      | immediate imm =>
        refine .check fun w _ => .ite (fun _ => ?_) fun _ => ?_
        · exact Fronted.withImmediate (.bare (w.opcode_lt (by decide))) w imm.value
        · exact Fronted.withImmediate (.onRegister (w.opcode_lt (by decide)) (by decide) dst) w
            imm.value
    | memory m =>
      cases src with
      | register src =>
        exact .check fun w _ => (Fronted.onMemory (w.opcode_lt (by decide)) src.code_lt m).written
      | memory m' => exact .error
      | immediate imm =>
        exact .check fun w _ =>
          Fronted.withImmediate (.onMemory (w.opcode_lt (by decide)) (by decide) m) w imm.value
    | immediate imm => cases src <;> exact .error
  · cases dst <;> cases src <;> exact .error

theorem unary_written {digit : Nat} (hdigit : digit < 8) :
    Written cx (Writer.unary digit i cx) (unary digit i cx) := by
  unfold Writer.unary unary
  rcases i.operands with _ | ⟨dst, _ | ⟨second, rest⟩⟩
  · exact .error
  · cases dst with
    | register r =>
      exact .check fun w _ => (Fronted.onRegister (w.opcode_lt (by decide)) hdigit r).written
    | memory m =>
      exact .check fun w _ => (Fronted.onMemory (w.opcode_lt (by decide)) hdigit m).written
    | _ => exact .error
  · cases dst <;> exact .error

theorem imul_written : Written cx (Writer.imul i cx) (imul i cx) := by
  unfold Writer.imul imul
  rcases i.operands with _ | ⟨dst, _ | ⟨src, _ | ⟨third, _ | ⟨fourth, rest⟩⟩⟩⟩
  · exact .error
  · exact unary_written (by decide)
  · cases dst with
    | register dst =>
      refine .check fun w _ => ?_
      cases src with
      | register r => exact (Fronted.onPair (by decide) r dst).written
      | memory m => exact (Fronted.onMemory (by decide) dst.code_lt m).written
      | _ => exact .error
    | _ => exact .error
  · cases dst with
    | register dst =>
      cases third with
      | immediate v =>
        refine .check fun w _ => ?_
        have hopcode : (Opcode.primary (if Immediate.isShort { value := v } then 0x6B
            else 0x69)).number < 256 := by
          split <;> decide
        cases src with
        | register r => exact Fronted.withImmediate (.onPair hopcode r dst) _ v
        | memory m => exact Fronted.withImmediate (.onMemory hopcode dst.code_lt m) _ v
        | _ => exact .error
      | _ => exact .error
    | _ => cases third <;> exact .error
  · cases dst <;> cases third <;> exact .error

theorem step_written (op : StepOp) : Written cx (Writer.step op i cx) (step op i cx) := by
  have hop := op.number_lt
  unfold Writer.step step
  rcases i.operands with _ | ⟨dst, _ | ⟨second, rest⟩⟩
  · exact .error
  · cases dst with
    | register r =>
      refine .check fun w _ => .ite (fun _ => ?_) fun _ => ?_
      · exact (Fronted.onRegister (by decide) (by omega) r).written
      · exact (Fronted.bare (r.opcode_lt (by omega))).written
    | memory m =>
      exact .check fun w _ => (Fronted.onMemory (w.opcode_lt (by decide)) (by omega) m).written
    | _ => exact .error
  · cases dst <;> exact .error

/-- The opcode that a count calls for leaves room for the width. -/
theorem shiftCount_lt {count : Operand} {n : Nat} {constant : Option Int}
    (h : shiftCount i count = .ok (n, constant)) : n < 255 := by
  rcases shiftCount_eq_ok h with ⟨-, rfl, -⟩ | ⟨-, rfl, -⟩ | ⟨v, -, rfl, -⟩
  all_goals decide

theorem shift_written (op : ShiftOp) : Written cx (Writer.shift op i cx) (shift op i cx) := by
  have hop := op.number_lt
  unfold Writer.shift shift
  rcases i.operands with _ | ⟨dst, _ | ⟨count, _ | ⟨third, rest⟩⟩⟩
  · exact .error
  · cases dst <;> exact .error
  · cases dst with
    | register r =>
      exact .check fun w _ => .check fun (n, v) hcount =>
        Fronted.constant
          (.onRegister (o := .primary _) (w.opcode_lt (shiftCount_lt hcount)) hop r) v
    | memory m =>
      exact .check fun w _ => .check fun (n, v) hcount =>
        Fronted.constant
          (.onMemory (o := .primary _) (w.opcode_lt (shiftCount_lt hcount)) hop m) v
    | _ => exact .error
  · cases dst <;> exact .error

theorem setcc_written (condition : Condition) :
    Written cx (Writer.setcc condition i cx) (setcc condition i cx) := by
  have hopcode : (Opcode.secondary (0x90 + condition.code)).number < 256 :=
    condition.opcode_lt (by decide)
  unfold Writer.setcc setcc
  rcases i.operands with _ | ⟨dst, _ | ⟨second, rest⟩⟩
  · exact .error
  · cases dst with
    | register r =>
      exact .ite (fun _ => (Fronted.onRegister hopcode (by decide) r).written) fun _ => .error
    | memory m =>
      exact .ite (fun _ => (Fronted.onMemory hopcode (by decide) m).written) fun _ => .error
    | _ => exact .error
  · cases dst <;> exact .error

/-! ## Stack -/

theorem push_written : Written cx (Writer.push i cx) (push i cx) := by
  unfold Writer.push push
  rcases i.arguments cx with _ | ⟨op, _ | ⟨second, rest⟩⟩
  · exact .error
  · cases op with
    | register r =>
      cases r with
      | segment s => exact Fronted.written (.opcode (by cases s <;> decide))
      | general w n =>
        exact .ite (fun _ => .error) fun _ =>
          Fronted.written (.bare ((Register.general w n).opcode_lt (by decide)))
    | memory m =>
      exact .check fun w _ => .ite (fun _ => .error) fun _ =>
        Fronted.written (.onMemory (by decide) (by decide) m)
    | immediate imm =>
      refine .ite (fun _ => ?_) fun _ => ?_
      · exact Fronted.withImmediate (.opcode (by decide)) .byte imm.value
      · exact Fronted.withImmediate (.opcode (by decide)) cx.mode.width imm.value
  · cases op with
    | register r => cases r <;> exact .error
    | _ => exact .error

theorem pop_written : Written cx (Writer.pop i cx) (pop i cx) := by
  unfold Writer.pop pop
  rcases i.operands with _ | ⟨op, _ | ⟨second, rest⟩⟩
  · exact .error
  · cases op with
    | register r =>
      cases r with
      | segment s =>
        cases s with
        | cs => exact .error
        | _ => exact Fronted.written (.opcode (by decide))
      | general w n =>
        exact .ite (fun _ => .error) fun _ =>
          Fronted.written (.bare ((Register.general w n).opcode_lt (by decide)))
    | memory m =>
      exact .check fun w _ => .ite (fun _ => .error) fun _ =>
        Fronted.written (.onMemory (by decide) (by decide) m)
    | _ => exact .error
  · cases op with
    | register r => cases r <;> exact .error
    | _ => exact .error

/-! ## Control flow -/

/-- The distance is checked before anything is written, the opcode included. -/
theorem distance_written (label : String) (w : Width) (distance : Int) (ho : o.number < 256) :
    Written cx
      (do
        let field ← Writer.check (distanceField label w distance)
        Writer.opcode o
        Writer.bytes field)
      (do
        let field ← distanceField label w distance
        pure { opcode := o, immediate := field }) := by
  refine .check fun field hfield => ?_
  refine (((Writes.opcode ho).seq (.bytes field)).congr (congrArg Except.ok ?_)).mono ?_
  · rw [Encoding.bytes_opcode]
    rfl
  · have hw := w.bytes_le
    have ho := o.length_le
    obtain ⟨-, rfl⟩ := distanceField_eq_ok.1 hfield
    rw [LittleEndian.length_ofInt]
    omega

theorem branch_written (label : String) {near : Opcode} (hnear : near.number < 256)
    {short : Option Nat} (hshort : ∀ n, short = some n → n < 256) :
    Written cx (Writer.branch cx label near short) (branch cx label near short) := by
  unfold Writer.branch branch
  cases cx.form with
  | near => exact distance_written label _ _ hnear
  | short =>
    cases short with
    | none => exact distance_written label _ _ hnear
    | some n => exact distance_written label _ _ (hshort n rfl)

theorem indirect_written {digit : Nat} (hdigit : digit < 8) (op : Operand) :
    Written cx (Writer.indirect i cx digit op) (indirect i cx digit op) := by
  cases op with
  | register r =>
    exact .check fun w _ => .ite (fun _ => .error) fun _ =>
      Fronted.written (.onRegister (by decide) hdigit r)
  | memory m =>
    obtain ⟨size, segment, base, index, scale, displacement⟩ := m
    cases size with
    | word => exact Fronted.written (.onMemory (by decide) hdigit _)
    | dword => exact Fronted.written (.onMemory (by decide) hdigit _)
    | _ => exact .error
  | _ => exact .error

theorem jmp_written : Written cx (Writer.jmp i cx) (jmp i cx) := by
  unfold Writer.jmp jmp
  rcases i.operands with _ | ⟨op, _ | ⟨second, rest⟩⟩
  · exact .error
  · cases op with
    | label name => exact branch_written name (by decide) (by rintro n ⟨⟩; decide)
    | _ => exact indirect_written (by decide) _
  · cases op <;> exact .error

theorem call_written : Written cx (Writer.call i cx) (call i cx) := by
  unfold Writer.call call
  rcases i.operands with _ | ⟨op, _ | ⟨second, rest⟩⟩
  · exact .error
  · cases op with
    | label name => exact branch_written name (by decide) nofun
    | _ => exact indirect_written (by decide) _
  · cases op <;> exact .error

theorem jcc_written (condition : Condition) :
    Written cx (Writer.jcc condition i cx) (jcc condition i cx) := by
  unfold Writer.jcc jcc
  rcases i.operands with _ | ⟨op, _ | ⟨second, rest⟩⟩
  · exact .error
  · cases op with
    | label name =>
      refine branch_written name (condition.opcode_lt (by decide)) ?_
      rintro n ⟨⟩
      exact condition.opcode_lt (by decide)
    | _ => exact .error
  · cases op <;> exact .error

theorem ret_written : Written cx (Writer.ret i) (ret i) := by
  unfold Writer.ret ret
  rcases i.operands with _ | ⟨op, _ | ⟨second, rest⟩⟩
  · exact Fronted.written (.opcode (by decide))
  · cases op with
    | immediate v => exact .check fun _ _ => Fronted.withImmediate (.opcode (by decide)) .word v
    | _ => exact .error
  · cases op <;> exact .error

theorem int_written : Written cx (Writer.int i) (int i) := by
  unfold Writer.int int
  rcases i.operands with _ | ⟨op, _ | ⟨second, rest⟩⟩
  · exact .error
  · cases op with
    | immediate v => exact .check fun _ _ => Fronted.withImmediate (.opcode (by decide)) .byte v
    | _ => exact .error
  · cases op <;> exact .error

/-! ## Input, output and system -/

theorem transfer_written {byteOpcode : Nat} (hopcode : byteOpcode < 247) (w : Width)
    (op : Operand) :
    Written cx (Writer.transfer i cx w byteOpcode op) (transfer i w byteOpcode op) := by
  have hoverride := Writes.operandOverride cx.mode w
  unfold Writer.transfer
  split
  · -- The address is checked with the override and the opcode written already.
    rename_i v
    have ho : (Opcode.primary (byteOpcode + w.opcodeBit)).number < 256 := w.opcode_lt (by omega)
    refine (Writes.congr (hoverride.seq ((Writes.opcode ho).seq
      (.check fun _ _ => .field .byte v))) ?_).mono (show 1 + (1 + 1) ≤ 14 by decide)
    unfold transfer
    dsimp only
    cases requireUnsigned .byte v with
    | error err => rfl
    | ok =>
      unfold withImmediate
      cases Width.byte.field v with
      | error err => rfl
      | ok field => exact congrArg Except.ok (Encoding.bytes_opcode cx.mode w _ field).symm
  · exact Fronted.written (.bare (w.opcode_lt (by omega)))
  · rename_i hnumber hdx
    rw [transfer.eq_3 i w byteOpcode op hnumber hdx]
    have hrefuse {err : AssemblyError} : Writes 13 (Writer.check (.error err)) (.error err) :=
      .refuse
    exact hoverride.seq hrefuse

theorem input_written : Written cx (Writer.input i cx) (input i) := by
  unfold Writer.input input
  rcases i.operands with _ | ⟨dst, _ | ⟨src, _ | ⟨third, rest⟩⟩⟩
  · exact .error
  · cases dst <;> exact .error
  · cases dst with
    | register r => exact .check fun w _ => transfer_written (by decide) w src
    | _ => exact .error
  · cases dst <;> exact .error

theorem output_written : Written cx (Writer.output i cx) (output i) := by
  unfold Writer.output output
  rcases i.operands with _ | ⟨dst, _ | ⟨src, _ | ⟨third, rest⟩⟩⟩
  · exact .error
  · exact .error
  · cases src with
    | register r => exact .check fun w _ => transfer_written (by decide) w dst
    | _ => exact .error
  · cases src <;> exact .error

theorem table_written (op : TableOp) : Written cx (Writer.table op i cx) (table op i cx) := by
  unfold Writer.table table
  rcases i.operands with _ | ⟨dst, _ | ⟨second, rest⟩⟩
  · exact .error
  · cases dst with
    | memory m => exact Fronted.written (.onMemory (by decide) op.number_lt m)
    | _ => exact .error
  · cases dst <;> exact .error

theorem plain_written (op : PlainOp) : Written cx (Writer.plain op i cx) (plain op i) := by
  unfold Writer.plain plain
  cases i.operands with
  | nil => exact Fronted.written (.bare (by cases op <;> decide))
  | cons => exact .error

end Encoding

namespace Instruction

variable (i : Instruction) (cx : Context)

/-- What an instruction writes is its encoding. -/
theorem writer_written : Written cx (i.writer cx) (i.encoding cx) := by
  unfold writer encoding
  -- One lemma for each encoder, along the dispatch that both share.
  cases i.mnemonic with
  | mov => exact Encoding.mov_written
  | movzx => exact Encoding.movExtending_written (by decide)
  | movsx => exact Encoding.movExtending_written (by decide)
  | lea => exact Encoding.lea_written
  | xchg => exact Encoding.xchg_written
  | arithmetic op => exact Encoding.arithmetic_written op
  | test => exact Encoding.test_written
  | unary op => exact Encoding.unary_written op.number_lt
  | imul => exact Encoding.imul_written
  | step op => exact Encoding.step_written op
  | shift op => exact Encoding.shift_written op
  | push => exact Encoding.push_written
  | pop => exact Encoding.pop_written
  | call => exact Encoding.call_written
  | ret => exact Encoding.ret_written
  | jmp => exact Encoding.jmp_written
  | jcc c => exact Encoding.jcc_written c
  | setcc c => exact Encoding.setcc_written c
  | input => exact Encoding.input_written
  | output => exact Encoding.output_written
  | int => exact Encoding.int_written
  | table op => exact Encoding.table_written op
  | plain op => exact Encoding.plain_written op

/-- An instruction has an opcode at least. -/
theorem length_encode_pos {i : Instruction} {cx : Context} {bytes : List UInt8}
    (h : i.encode cx = .ok bytes) : 1 ≤ bytes.length := by
  obtain ⟨e, -, hok⟩ := bind_eq_ok.1 h
  cases hok
  have ho : 1 ≤ e.opcode.length := by
    cases e.opcode <;> simp [Opcode.length]
  simp only [Encoding.bytes, Encoding.body, List.length_append, Opcode.length_bytes]
  omega

/-- **Every instruction fits its buffer.** Writing an instruction never runs past the end of the
buffer, and no number in it is too large for its byte, whether the instruction is refused in the end
or not. It is refused for the reason that its encoding is, and otherwise leaves its encoding in the
buffer, which has at least one byte and at most 14. -/
theorem write_agrees :
    (∀ overflow, i.write cx ≠ .error (.overflow overflow)) ∧
    (∀ number, i.write cx ≠ .error (.carry number)) ∧
    match i.encode cx with
    | .ok bytes =>
      (∃ buffer, i.write cx = .ok buffer ∧ buffer.bytes = bytes) ∧
        1 ≤ bytes.length ∧ bytes.length ≤ 14
    | .error err => i.write cx = .error (.refused err) := by
  have hwritten : Writes 14 (i.writer cx) (i.encode cx) := i.writer_written cx
  unfold write
  rcases hwritten.run_empty (by decide) with ⟨err, hencode, hrun⟩ |
    ⟨bytes, buffer, hencode, hrun, hbytes, hlength⟩
  · rw [hencode, hrun]
    exact ⟨nofun, nofun, rfl⟩
  · rw [hencode, hrun]
    exact ⟨nofun, nofun, ⟨buffer, rfl, hbytes⟩, length_encode_pos hencode, hlength⟩

/-- The longest instruction: a constant of 32 bits in 16-bit code, with all three overrides and a
full address. -/
example :
    (encode ⟨.mov, [
        .memory {
          size := .dword, segment := some .gs, base := some .ebx, index := some .esi, scale := 4
          displacement := .literal 0x12345678 },
        .immediate 0x12345678]⟩ { mode := .bits16 }).map List.length = .ok 14 := by
  decide

end Instruction

end BootImage
