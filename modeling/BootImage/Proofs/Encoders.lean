import BootImage.Proofs.LabelFields

/-!
# Encoders fill label fields

Every encoder is built from the shared forms, so resolving the labels of an instruction fills the
fields for them and leaves the rest of the encoding as it was sized. The cases are the operands
that the encoder takes; all others are refused in every context. Only branches to a label are
different: their field holds a distance, and they are not sized with it.

* `mov_fills`, `arithmetic_fills`, … — one lemma for each encoder.
* `Instruction.encoding_fills` — every instruction but a branch to a label.
-/

namespace BootImage

namespace Encoding

/-! ## Data movement -/

theorem mov_fills (operands : List Operand) (cx : Context) (form : BranchForm) :
    FillsLabels ⟨.mov, operands⟩ cx form (mov ⟨.mov, operands⟩) := by
  rcases operands with _ | ⟨dst, _ | ⟨src, _ | ⟨third, rest⟩⟩⟩
  · exact .error
  · cases dst <;> exact .error
  · cases dst with
    | register dst =>
      cases src with
      | register src => exact .refl
      | memory m => exact .ite (fun _ => onMemory_fills ..) (fun _ => onMemory_fills ..)
      | immediate v => exact .refl
      | label name =>
        rw [FillsLabels, valueField?_register rfl]
        refine .bind fun width hwidth => ?_
        obtain ⟨-, rfl⟩ := generalWidth_eq_ok.1 hwidth
        exact withImmediate_fills_value ..
    | memory m =>
      cases src with
      | register src => exact .ite (fun _ => onMemory_fills ..) (fun _ => onMemory_fills ..)
      | memory m' => exact .error
      | immediate v =>
        exact .bind fun width hwidth => withImmediate_fills (onMemory_fills ..) ..
      | label name =>
        refine .bind fun width hwidth => ?_
        rw [valueField?_memory rfl (memoryWidth_eq_ok.1 hwidth)]
        exact withImmediate_fills_label (onMemory_fills ..) ..
    | immediate v => cases src <;> exact .error
    | label name => cases src <;> exact .error
  · cases dst <;> cases src <;> exact .error

theorem movExtending_fills (byteOpcode : Nat) (mnemonic : Mnemonic) (operands : List Operand)
    (cx : Context) (form : BranchForm) :
    FillsLabels ⟨mnemonic, operands⟩ cx form (movExtending byteOpcode ⟨mnemonic, operands⟩) := by
  rcases operands with _ | ⟨dst, _ | ⟨src, _ | ⟨third, rest⟩⟩⟩
  · exact .error
  · cases dst <;> exact .error
  · cases dst with
    | register dst =>
      cases src with
      | register src =>
        rw [FillsLabels, valueField?_eq_none rfl]
        exact .refl
      | memory m =>
        rw [FillsLabels, valueField?_eq_none rfl]
        exact .bind fun _ _ => .bind fun _ _ => .ite (fun _ => onMemory_fills ..) fun _ => .error
      | _ => exact .bind fun _ _ => .error
    | _ => exact .error
  · cases dst <;> cases src <;> exact .error

theorem lea_fills (operands : List Operand) (cx : Context) (form : BranchForm) :
    FillsLabels ⟨.lea, operands⟩ cx form (lea ⟨.lea, operands⟩) := by
  rcases operands with _ | ⟨dst, _ | ⟨src, _ | ⟨third, rest⟩⟩⟩
  · exact .error
  · cases dst <;> exact .error
  · cases dst with
    | register dst =>
      cases src with
      | memory m => exact .bind fun _ _ => .ite (fun _ => .error) fun _ => onMemory_fills ..
      | _ => exact .error
    | _ => exact .error
  · cases dst <;> cases src <;> exact .error

theorem xchg_fills (operands : List Operand) (cx : Context) (form : BranchForm) :
    FillsLabels ⟨.xchg, operands⟩ cx form (xchg ⟨.xchg, operands⟩) := by
  rcases operands with _ | ⟨a, _ | ⟨b, _ | ⟨third, rest⟩⟩⟩
  · exact .error
  · cases a <;> exact .error
  · cases a with
    | register a =>
      cases b with
      | register b => exact .refl
      | memory m => exact .bind fun _ _ => onMemory_fills ..
      | _ => exact .error
    | memory m =>
      cases b with
      | register b => exact .bind fun _ _ => onMemory_fills ..
      | _ => exact .error
    | _ => cases b <;> exact .error
  · cases a <;> cases b <;> exact .error

/-! ## Arithmetic and logic -/

/-- The value of a label goes into the widest field that the operation has. -/
theorem arithmeticConstant_fills (op : ArithmeticOp) (dst : Register) (v : Int) :
    Fills none (some (dst.width, v))
      (arithmeticConstant op dst dst.width { value := 0, symbolic := true })
      (arithmeticConstant op dst dst.width { value := v, symbolic := true }) := by
  simp only [arithmeticConstant, Immediate.isShort, Bool.not_true, Bool.false_and,
    Bool.false_eq_true, if_false]
  refine .ite (fun hbyte => ?_) fun _ => ?_
  · rw [hbyte]
    exact .ite (fun _ => withImmediate_fills_value ..) fun _ => withImmediate_fills_value ..
  · exact .ite (fun _ => withImmediate_fills_value ..) fun _ => withImmediate_fills_value ..

theorem arithmetic_fills (op : ArithmeticOp) (operands : List Operand) (cx : Context)
    (form : BranchForm) :
    FillsLabels ⟨.arithmetic op, operands⟩ cx form (arithmetic op ⟨.arithmetic op, operands⟩) := by
  rcases operands with _ | ⟨dst, _ | ⟨src, _ | ⟨third, rest⟩⟩⟩
  · exact .error
  · cases dst <;> exact .error
  · cases dst with
    | register dst =>
      cases src with
      | register src => exact .refl
      | memory m => exact .bind fun _ _ => onMemory_fills ..
      | immediate v => exact .refl
      | label name =>
        -- A label never takes the short form, so sizing and writing have the same opcode.
        rw [FillsLabels, valueField?_register rfl]
        refine .bind fun width hwidth => ?_
        obtain ⟨-, rfl⟩ := generalWidth_eq_ok.1 hwidth
        exact arithmeticConstant_fills ..
    | memory m =>
      cases src with
      | register src => exact .bind fun _ _ => onMemory_fills ..
      | memory m' => exact .error
      | immediate v =>
        refine .bind fun width _ => .ite (fun _ => ?_) fun _ => .ite (fun _ => ?_) fun _ => ?_
        all_goals exact withImmediate_fills (onMemory_fills ..) ..
      | label name =>
        refine .bind fun width hwidth => ?_
        rw [valueField?_memory rfl (memoryWidth_eq_ok.1 hwidth)]
        refine .ite (fun hbyte => ?_) fun _ => ?_
        · rw [hbyte]
          exact withImmediate_fills_label (onMemory_fills ..) ..
        · exact withImmediate_fills_label (onMemory_fills ..) ..
    | immediate v => cases src <;> exact .error
    | label name => cases src <;> exact .error
  · cases dst <;> cases src <;> exact .error

theorem test_fills (operands : List Operand) (cx : Context) (form : BranchForm) :
    FillsLabels ⟨.test, operands⟩ cx form (test ⟨.test, operands⟩) := by
  rcases operands with _ | ⟨dst, _ | ⟨src, _ | ⟨third, rest⟩⟩⟩
  · exact .error
  · cases dst <;> exact .error
  · cases dst with
    | register dst =>
      cases src with
      | register src => exact .refl
      | memory m => exact .bind fun _ _ => onMemory_fills ..
      | immediate v => exact .refl
      | label name =>
        rw [FillsLabels, valueField?_register rfl]
        refine .bind fun width hwidth => ?_
        obtain ⟨-, rfl⟩ := generalWidth_eq_ok.1 hwidth
        exact .ite (fun _ => withImmediate_fills_value ..) fun _ => withImmediate_fills_value ..
    | memory m =>
      cases src with
      | register src => exact .bind fun _ _ => onMemory_fills ..
      | memory m' => exact .error
      | immediate v => exact .bind fun _ _ => withImmediate_fills (onMemory_fills ..) ..
      | label name =>
        refine .bind fun width hwidth => ?_
        rw [valueField?_memory rfl (memoryWidth_eq_ok.1 hwidth)]
        exact withImmediate_fills_label (onMemory_fills ..) ..
    | immediate v => cases src <;> exact .error
    | label name => cases src <;> exact .error
  · cases dst <;> cases src <;> exact .error

theorem unary_fills (number : Nat) (mnemonic : Mnemonic) (operands : List Operand)
    (cx : Context) (form : BranchForm) :
    FillsLabels ⟨mnemonic, operands⟩ cx form (unary number ⟨mnemonic, operands⟩) := by
  rcases operands with _ | ⟨dst, _ | ⟨src, rest⟩⟩
  · exact .error
  · cases dst with
    | register r =>
      rw [FillsLabels, valueField?_eq_none rfl]
      exact .refl
    | memory m =>
      rw [FillsLabels, valueField?_eq_none rfl]
      exact .bind fun _ _ => onMemory_fills ..
    | _ => exact .error
  · cases dst <;> exact .error

theorem imul_fills (operands : List Operand) (cx : Context) (form : BranchForm) :
    FillsLabels ⟨.imul, operands⟩ cx form (imul ⟨.imul, operands⟩) := by
  rcases operands with _ | ⟨dst, _ | ⟨src, _ | ⟨third, _ | ⟨fourth, rest⟩⟩⟩⟩
  · exact .error
  · exact unary_fills ..
  · cases dst with
    | register dst =>
      cases src with
      | register src => exact .refl
      | memory m => exact .bind fun _ _ => onMemory_fills ..
      | _ => exact .bind fun _ _ => .error
    | _ => exact .error
  · cases dst with
    | register dst =>
      cases third with
      | immediate v =>
        refine .bind fun _ _ => ?_
        cases src with
        | register src => exact .refl
        | memory m => exact withImmediate_fills (onMemory_fills ..) ..
        | _ => exact .error
      | _ => exact .error
    | _ => cases third <;> exact .error
  · cases dst <;> cases third <;> exact .error

theorem step_fills (op : StepOp) (operands : List Operand) (cx : Context) (form : BranchForm) :
    FillsLabels ⟨.step op, operands⟩ cx form (step op ⟨.step op, operands⟩) := by
  rcases operands with _ | ⟨dst, _ | ⟨src, rest⟩⟩
  · exact .error
  · cases dst with
    | register r => exact .refl
    | memory m => exact .bind fun _ _ => onMemory_fills ..
    | _ => exact .error
  · cases dst <;> exact .error

/-- What follows a shifted memory operand is a literal or nothing. -/
theorem withShiftCount_fills {symbol : Option (Width × Int)}
    {sized resolved : Except AssemblyError Encoding} (h : Fills symbol none sized resolved)
    (constant : Option Int) :
    Fills symbol none
      (sized >>= fun e => match constant with
        | none => pure e
        | some v => e.withImmediate .byte v)
      (resolved >>= fun e => match constant with
        | none => pure e
        | some v => e.withImmediate .byte v) := by
  cases constant with
  | none => simpa only [bind_pure] using h
  | some v => exact withImmediate_fills h ..

theorem shift_fills (op : ShiftOp) (operands : List Operand) (cx : Context) (form : BranchForm) :
    FillsLabels ⟨.shift op, operands⟩ cx form (shift op ⟨.shift op, operands⟩) := by
  rcases operands with _ | ⟨dst, _ | ⟨count, _ | ⟨third, rest⟩⟩⟩
  · exact .error
  · exact .error
  · cases dst with
    | register r =>
      cases count with
      | register r' => exact .refl
      | immediate v => exact .refl
      | _ => exact .bind fun _ _ => .error
    | memory m =>
      cases count with
      | register r =>
        exact .bind fun _ _ => .bind fun (_, constant) _ =>
          withShiftCount_fills (onMemory_fills ..) constant
      | immediate v =>
        exact .bind fun _ _ => .bind fun (_, constant) _ =>
          withShiftCount_fills (onMemory_fills ..) constant
      | _ => exact .bind fun _ _ => .error
    | _ => exact .error
  · exact .error

theorem setcc_fills (condition : Condition) (operands : List Operand) (cx : Context)
    (form : BranchForm) :
    FillsLabels ⟨.setcc condition, operands⟩ cx form
      (setcc condition ⟨.setcc condition, operands⟩) := by
  rcases operands with _ | ⟨dst, _ | ⟨second, rest⟩⟩
  · exact .error
  · cases dst with
    | register r => exact .refl
    | memory m => exact .ite (fun _ => onMemory_fills ..) fun _ => .error
    | _ => exact .error
  · cases dst <;> exact .error

/-! ## Stack, control flow and system -/

theorem push_fills (operands : List Operand) (cx : Context) (form : BranchForm) :
    FillsLabels ⟨.push, operands⟩ cx form (push ⟨.push, operands⟩) := by
  rcases operands with _ | ⟨op, _ | ⟨second, rest⟩⟩
  · exact .error
  · cases op with
    | register r => cases r <;> exact .refl
    | memory m => exact .bind fun _ _ => .ite (fun _ => .error) fun _ => onMemory_fills ..
    | immediate v => exact .refl
    | label name => exact withImmediate_fills_value ..
  · cases op with
    | register r => cases r <;> exact .error
    | _ => exact .error

theorem pop_fills (operands : List Operand) (cx : Context) (form : BranchForm) :
    FillsLabels ⟨.pop, operands⟩ cx form (pop ⟨.pop, operands⟩) := by
  rcases operands with _ | ⟨op, _ | ⟨second, rest⟩⟩
  · exact .error
  · cases op with
    | register r => cases r <;> exact .refl
    | memory m => exact .bind fun _ _ => .ite (fun _ => .error) fun _ => onMemory_fills ..
    | _ => exact .error
  · cases op with
    | register r => cases r <;> exact .error
    | _ => exact .error

/-- A branch through a register or memory operand. -/
theorem indirect_fills (number : Nat) (mnemonic : Mnemonic) (op : Operand) (cx : Context)
    (form : BranchForm)
    (h : op.label? = none) :
    FillsLabels ⟨mnemonic, [op]⟩ cx form fun cx => indirect ⟨mnemonic, [op]⟩ cx number op := by
  rw [FillsLabels, valueField?_eq_none (by simp [h])]
  cases op with
  | register r => exact .refl
  | memory m =>
    obtain ⟨size, segment, base, index, scale, displacement⟩ := m
    cases size with
    | word => exact onMemory_fills ..
    | dword => exact onMemory_fills ..
    | _ => exact .error
  | immediate v => exact .error
  | label name => exact .error

theorem jmp_fills (operands : List Operand) (cx : Context) (form : BranchForm)
    (h : Instruction.branchTarget? ⟨.jmp, operands⟩ = none) :
    FillsLabels ⟨.jmp, operands⟩ cx form (jmp ⟨.jmp, operands⟩) := by
  rcases operands with _ | ⟨op, _ | ⟨second, rest⟩⟩
  · exact .error
  · cases op with
    | label name => cases h
    | _ => exact indirect_fills 4 _ _ _ _ rfl
  · cases op <;> exact .error

theorem call_fills (operands : List Operand) (cx : Context) (form : BranchForm)
    (h : Instruction.branchTarget? ⟨.call, operands⟩ = none) :
    FillsLabels ⟨.call, operands⟩ cx form (call ⟨.call, operands⟩) := by
  rcases operands with _ | ⟨op, _ | ⟨second, rest⟩⟩
  · exact .error
  · cases op with
    | label name => cases h
    | _ => exact indirect_fills 2 _ _ _ _ rfl
  · cases op <;> exact .error

theorem jcc_fills (condition : Condition) (operands : List Operand) (cx : Context)
    (form : BranchForm)
    (h : Instruction.branchTarget? ⟨.jcc condition, operands⟩ = none) :
    FillsLabels ⟨.jcc condition, operands⟩ cx form (jcc condition ⟨.jcc condition, operands⟩) := by
  rcases operands with _ | ⟨op, _ | ⟨second, rest⟩⟩
  · exact .error
  · cases op with
    | label name => cases h
    | _ => exact .error
  · cases op <;> exact .error

theorem table_fills (op : TableOp) (operands : List Operand) (cx : Context) (form : BranchForm) :
    FillsLabels ⟨.table op, operands⟩ cx form (table op ⟨.table op, operands⟩) := by
  rcases operands with _ | ⟨dst, _ | ⟨second, rest⟩⟩
  · exact .error
  · cases dst with
    | memory m => exact onMemory_fills ..
    | _ => exact .error
  · cases dst <;> exact .error

theorem ret_fills (operands : List Operand) (cx : Context) (form : BranchForm) :
    FillsLabels ⟨.ret, operands⟩ cx form (fun _ => ret ⟨.ret, operands⟩) := by
  rcases operands with _ | ⟨op, _ | ⟨second, rest⟩⟩
  · exact .refl
  · cases op with
    | immediate v => exact .refl
    | _ => exact .error
  · cases op <;> exact .error

theorem int_fills (operands : List Operand) (cx : Context) (form : BranchForm) :
    FillsLabels ⟨.int, operands⟩ cx form (fun _ => int ⟨.int, operands⟩) := by
  rcases operands with _ | ⟨op, _ | ⟨second, rest⟩⟩
  · exact .error
  · cases op with
    | immediate v => exact .refl
    | _ => exact .error
  · cases op <;> exact .error

theorem input_fills (operands : List Operand) (cx : Context) (form : BranchForm) :
    FillsLabels ⟨.input, operands⟩ cx form (fun _ => input ⟨.input, operands⟩) := by
  rcases operands with _ | ⟨dst, _ | ⟨src, _ | ⟨third, rest⟩⟩⟩
  · exact .error
  · cases dst <;> exact .error
  · cases dst with
    | register r =>
      cases src with
      | register r' => exact .refl
      | immediate v => exact .refl
      | _ => exact .bind fun _ _ => .error
    | _ => exact .error
  · cases dst <;> exact .error

theorem output_fills (operands : List Operand) (cx : Context) (form : BranchForm) :
    FillsLabels ⟨.output, operands⟩ cx form (fun _ => output ⟨.output, operands⟩) := by
  rcases operands with _ | ⟨dst, _ | ⟨src, _ | ⟨third, rest⟩⟩⟩
  · exact .error
  · exact .error
  · cases src with
    | register r =>
      cases dst with
      | register r' => exact .refl
      | immediate v => exact .refl
      | _ => exact .bind fun _ _ => .error
    | _ => exact .error
  · cases src <;> exact .error

theorem plain_fills (op : PlainOp) (operands : List Operand) (cx : Context) (form : BranchForm) :
    FillsLabels ⟨.plain op, operands⟩ cx form (fun _ => plain op ⟨.plain op, operands⟩) := by
  cases operands with
  | nil => exact .refl
  | cons op' rest => exact .error

end Encoding

/-- **Resolving the labels of an instruction fills its label fields**, and changes nothing else. -/
theorem Instruction.encoding_fills {i : Instruction} (h : i.branchTarget? = none) (cx : Context)
    (form : BranchForm) :
    FillsLabels i cx form i.encoding := by
  obtain ⟨mnemonic, operands⟩ := i
  cases mnemonic with
  | mov => exact Encoding.mov_fills ..
  | movzx => exact Encoding.movExtending_fills ..
  | movsx => exact Encoding.movExtending_fills ..
  | lea => exact Encoding.lea_fills ..
  | xchg => exact Encoding.xchg_fills ..
  | arithmetic op => exact Encoding.arithmetic_fills ..
  | test => exact Encoding.test_fills ..
  | unary op => exact Encoding.unary_fills ..
  | imul => exact Encoding.imul_fills ..
  | step op => exact Encoding.step_fills ..
  | shift op => exact Encoding.shift_fills ..
  | push => exact Encoding.push_fills ..
  | pop => exact Encoding.pop_fills ..
  | call => exact Encoding.call_fills operands cx form h
  | ret => exact Encoding.ret_fills ..
  | jmp => exact Encoding.jmp_fills operands cx form h
  | jcc condition => exact Encoding.jcc_fills condition operands cx form h
  | setcc condition => exact Encoding.setcc_fills ..
  | input => exact Encoding.input_fills ..
  | output => exact Encoding.output_fills ..
  | int => exact Encoding.int_fills ..
  | table op => exact Encoding.table_fills ..
  | plain op => exact Encoding.plain_fills ..

end BootImage
