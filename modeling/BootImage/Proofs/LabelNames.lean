import BootImage.Encoding.Instruction
import BootImage.Proofs.Checked

/-!
# What label names have a say in

An encoding holds the values of labels and not their names. Names get into the texts of errors only,
so an instruction whose labels are respelled is encoded to the same bytes, or refused for the same
kind of reason.

* `AssemblyError.SameKind`, `SameOutcome` — errors and outcomes up to what a message names.
* `Operand.Respelled`, `Instruction.Respelled` — the same up to how labels are spelled.
* `onMemory_respelled`, `branch_respelled` — the two forms that a label is part of.
* `mov_respelled`, `arithmetic_respelled`, … — one lemma for each encoder.
* `Instruction.Respelled.encoding` — every instruction.
-/

namespace BootImage

/-! ## Outcomes up to names -/

/-- Two errors of the same kind, whatever they name. -/
def AssemblyError.SameKind (err err' : AssemblyError) : Prop :=
  err'.ctorIdx = err.ctorIdx

theorem AssemblyError.SameKind.refl (err : AssemblyError) : err.SameKind err := rfl

/-- Two computations with the same value, or with errors of the same kind. -/
abbrev SameOutcome {α : Type} (x y : Except AssemblyError α) : Prop :=
  Alike AssemblyError.SameKind Eq x y

namespace SameOutcome

variable {α β : Type} {x y : Except AssemblyError α}

theorem refl (x : Except AssemblyError α) : SameOutcome x x :=
  Alike.refl AssemblyError.SameKind.refl x

theorem bind {f g : α → Except AssemblyError β} (h : SameOutcome x y)
    (hfg : ∀ a, SameOutcome (f a) (g a)) : SameOutcome (x >>= f) (y >>= g) := by
  refine Alike.bind h ?_
  rintro a _ rfl
  exact hfg a

theorem bind_left (h : SameOutcome x y) (f : α → Except AssemblyError β) :
    SameOutcome (x >>= f) (y >>= f) :=
  bind h fun a => refl (f a)

theorem ite {p : Prop} [Decidable p] {x' y' : Except AssemblyError α} (h : SameOutcome x y)
    (h' : SameOutcome x' y') : SameOutcome (if p then x else x') (if p then y else y') := by
  by_cases hp : p
  · rwa [if_pos hp, if_pos hp]
  · rwa [if_neg hp, if_neg hp]

end SameOutcome

/-! ## Respelled labels -/

variable (R : String → String → Prop)

inductive Displacement.Respelled : Displacement → Displacement → Prop
  | literal (value : Int) : Respelled (.literal value) (.literal value)
  | label {name name' : String} (delta : Int) :
      R name name' → Respelled (.label name delta) (.label name' delta)

/-- Two memory operands that differ at most in the name of a label. -/
structure Memory.Respelled (m m' : Memory) : Prop where
  size : m'.size = m.size
  segment : m'.segment = m.segment
  base : m'.base = m.base
  index : m'.index = m.index
  scale : m'.scale = m.scale
  displacement : m.displacement.Respelled R m'.displacement

/-- Two operands that differ at most in the name of a label. -/
inductive Operand.Respelled : Operand → Operand → Prop
  | register (r : Register) : Respelled (.register r) (.register r)
  | immediate (value : Int) : Respelled (.immediate value) (.immediate value)
  | memory {m m' : Memory} : m.Respelled R m' → Respelled (.memory m) (.memory m')
  | label {name name' : String} : R name name' → Respelled (.label name) (.label name')

/-- Two instructions that differ at most in the names of labels. -/
structure Instruction.Respelled (i i' : Instruction) : Prop where
  mnemonic : i'.mnemonic = i.mnemonic
  operands : List.Forall₂ (Operand.Respelled R) i.operands i'.operands

variable {R}

/-! ## Shared forms -/

namespace Memory.Respelled

variable {m m' : Memory} (h : m.Respelled R m')
include h

theorem displacementValue_eq (symbol : Option Int) :
    m'.displacementValue symbol = m.displacementValue symbol := by
  have hdisplacement := h.displacement
  unfold displacementValue
  generalize m.displacement = d, m'.displacement = d' at hdisplacement
  cases hdisplacement <;> rfl

theorem addressSize (mode : Mode) : SameOutcome (m.addressSize mode) (m'.addressSize mode) := by
  rw [Memory.addressSize, Memory.addressSize, h.base, h.index]
  cases m.base with
  | none => cases m.index <;> exact .refl _
  | some base =>
    cases m.index with
    | none => exact .refl _
    | some index =>
      exact .bind (.refl _) fun _ => .bind (.refl _) fun _ => .ite (.refl _) (.error rfl)

theorem addressing32 (disp : Immediate) (reg : Nat) :
    SameOutcome (m.addressing32 disp reg) (m'.addressing32 disp reg) := by
  rw [Memory.addressing32, Memory.addressing32, h.base, h.index, h.scale]
  exact .ite (.error rfl) (.refl _)

theorem addressing16 (disp : Immediate) (reg : Nat) :
    SameOutcome (m.addressing16 disp reg) (m'.addressing16 disp reg) := by
  rw [Memory.addressing16, Memory.addressing16, h.base, h.index, h.scale]
  refine .ite (.error rfl) (.ite (.refl _) ?_)
  cases registers16? m.base m.index with
  | none => exact .error rfl
  | some rm => exact .refl _

theorem addressing (mode : Mode) (symbol : Option Int) (reg : Nat) :
    SameOutcome (m.addressing mode symbol reg) (m'.addressing mode symbol reg) := by
  rw [Memory.addressing, Memory.addressing, h.displacementValue_eq, h.index, h.scale]
  refine .ite (.error rfl) (.bind (h.addressSize mode) fun size => ?_)
  cases size with
  | bits32 => exact h.addressing32 ..
  | bits16 => exact h.addressing16 ..

theorem segmentOverride_eq : m'.segmentOverride = m.segmentOverride := by
  rw [Memory.segmentOverride, Memory.segmentOverride, h.segment]

/-- An access without an operand width is refused in either spelling. -/
theorem memoryWidth (i i' : Instruction) : SameOutcome (i.memoryWidth m) (i'.memoryWidth m') := by
  rw [Instruction.memoryWidth, Instruction.memoryWidth, h.size]
  cases m.size.width? with
  | some w => exact .refl _
  | none => exact .error rfl

theorem onMemory (cx : Context) (width : Option Width) (opcode : Opcode) (reg : Nat) :
    SameOutcome (Encoding.onMemory cx width opcode reg m)
      (Encoding.onMemory cx width opcode reg m') := by
  rw [Encoding.onMemory, Encoding.onMemory, h.segmentOverride_eq]
  exact .bind (.refl _) fun _ => .bind (h.addressSize cx.mode) fun _ =>
    .bind_left (h.addressing cx.mode cx.symbol reg) _

end Memory.Respelled

namespace Encoding

/-- A distance out of range is refused whatever the target is called. -/
theorem distanceField_respelled (name name' : String) (w : Width) (distance : Int) :
    SameOutcome (distanceField name w distance) (distanceField name' w distance) :=
  .ite (.refl _) (.error rfl)

theorem branch_respelled (cx : Context) (name name' : String) (near : Opcode)
    (short : Option Nat) :
    SameOutcome (branch cx name near short) (branch cx name' near short) :=
  .bind_left (distanceField_respelled name name' _ _) _

theorem shiftCount_respelled {count count' : Operand} (h : count.Respelled R count')
    (mnemonic : Mnemonic) (operands operands' : List Operand) :
    SameOutcome (shiftCount ⟨mnemonic, operands⟩ count)
      (shiftCount ⟨mnemonic, operands'⟩ count') := by
  cases h with
  | memory hm => exact .error rfl
  | _ => exact .refl _

theorem indirect_respelled {op op' : Operand} (h : op.Respelled R op') (cx : Context)
    (number : Nat) (mnemonic : Mnemonic) :
    SameOutcome (indirect ⟨mnemonic, [op]⟩ cx number op)
      (indirect ⟨mnemonic, [op']⟩ cx number op') := by
  cases h with
  | @memory m m' hm =>
    simp only [indirect, hm.size]
    cases m.size with
    | word => exact hm.onMemory ..
    | dword => exact hm.onMemory ..
    | _ => exact .error rfl
  | _ => exact .refl _

/-! ## Encoders -/

variable {operands operands' : List Operand}
  (h : List.Forall₂ (Operand.Respelled R) operands operands') (cx : Context)

include h

theorem mov_respelled : SameOutcome (mov ⟨.mov, operands⟩ cx) (mov ⟨.mov, operands'⟩ cx) := by
  rcases h with _ | ⟨hdst, _ | ⟨hsrc, _ | ⟨hthird, hrest⟩⟩⟩
  · exact .refl _
  · cases hdst <;> exact .error rfl
  · cases hdst with
    | register dst =>
      cases hsrc with
      | memory hm => exact .ite (hm.onMemory ..) (hm.onMemory ..)
      | _ => exact .refl _
    | memory hm =>
      cases hsrc with
      | register src => exact .ite (hm.onMemory ..) (hm.onMemory ..)
      | memory hm' => exact .error rfl
      | _ => exact .bind (hm.memoryWidth ..) fun _ => .bind_left (hm.onMemory ..) _
    | _ => cases hsrc <;> exact .error rfl
  · cases hdst <;> cases hsrc <;> exact .error rfl

theorem movExtending_respelled (byteOpcode : Nat) (mnemonic : Mnemonic) :
    SameOutcome (movExtending byteOpcode ⟨mnemonic, operands⟩ cx)
      (movExtending byteOpcode ⟨mnemonic, operands'⟩ cx) := by
  rcases h with _ | ⟨hdst, _ | ⟨hsrc, _ | ⟨hthird, hrest⟩⟩⟩
  · exact .refl _
  · cases hdst <;> exact .error rfl
  · cases hdst with
    | register dst =>
      cases hsrc with
      | memory hm =>
        exact .bind (.refl _) fun _ => .bind (hm.memoryWidth ..) fun _ =>
          .ite (hm.onMemory ..) (.refl _)
      | _ => exact .refl _
    | _ => exact .error rfl
  · cases hdst <;> cases hsrc <;> exact .error rfl

theorem lea_respelled : SameOutcome (lea ⟨.lea, operands⟩ cx) (lea ⟨.lea, operands'⟩ cx) := by
  rcases h with _ | ⟨hdst, _ | ⟨hsrc, _ | ⟨hthird, hrest⟩⟩⟩
  · exact .refl _
  · cases hdst <;> exact .error rfl
  · cases hdst with
    | register dst =>
      cases hsrc with
      | memory hm => exact .bind (.refl _) fun _ => .ite (.refl _) (hm.onMemory ..)
      | _ => exact .refl _
    | _ => exact .error rfl
  · cases hdst <;> cases hsrc <;> exact .error rfl

theorem xchg_respelled : SameOutcome (xchg ⟨.xchg, operands⟩ cx) (xchg ⟨.xchg, operands'⟩ cx) := by
  rcases h with _ | ⟨ha, _ | ⟨hb, _ | ⟨hthird, hrest⟩⟩⟩
  · exact .refl _
  · cases ha <;> exact .error rfl
  · cases ha with
    | register a =>
      cases hb with
      | memory hm => exact .bind (.refl _) fun _ => hm.onMemory ..
      | _ => exact .refl _
    | memory hm =>
      cases hb with
      | register b => exact .bind (.refl _) fun _ => hm.onMemory ..
      | _ => exact .error rfl
    | _ => cases hb <;> exact .error rfl
  · cases ha <;> cases hb <;> exact .error rfl

theorem arithmetic_respelled (op : ArithmeticOp) :
    SameOutcome (arithmetic op ⟨.arithmetic op, operands⟩ cx)
      (arithmetic op ⟨.arithmetic op, operands'⟩ cx) := by
  rcases h with _ | ⟨hdst, _ | ⟨hsrc, _ | ⟨hthird, hrest⟩⟩⟩
  · exact .refl _
  · cases hdst <;> exact .error rfl
  · cases hdst with
    | register dst =>
      cases hsrc with
      | memory hm => exact .bind (.refl _) fun _ => hm.onMemory ..
      | _ => exact .refl _
    | memory hm =>
      cases hsrc with
      | register src => exact .bind (.refl _) fun _ => hm.onMemory ..
      | memory hm' => exact .error rfl
      | _ =>
        exact .bind (hm.memoryWidth ..) fun _ => .ite (.bind_left (hm.onMemory ..) _)
          (.ite (.bind_left (hm.onMemory ..) _) (.bind_left (hm.onMemory ..) _))
    | _ => cases hsrc <;> exact .error rfl
  · cases hdst <;> cases hsrc <;> exact .error rfl

theorem test_respelled : SameOutcome (test ⟨.test, operands⟩ cx) (test ⟨.test, operands'⟩ cx) := by
  rcases h with _ | ⟨hdst, _ | ⟨hsrc, _ | ⟨hthird, hrest⟩⟩⟩
  · exact .refl _
  · cases hdst <;> exact .error rfl
  · cases hdst with
    | register dst =>
      cases hsrc with
      | memory hm => exact .bind (.refl _) fun _ => hm.onMemory ..
      | _ => exact .refl _
    | memory hm =>
      cases hsrc with
      | register src => exact .bind (.refl _) fun _ => hm.onMemory ..
      | memory hm' => exact .error rfl
      | _ => exact .bind (hm.memoryWidth ..) fun _ => .bind_left (hm.onMemory ..) _
    | _ => cases hsrc <;> exact .error rfl
  · cases hdst <;> cases hsrc <;> exact .error rfl

theorem unary_respelled (number : Nat) (mnemonic : Mnemonic) :
    SameOutcome (unary number ⟨mnemonic, operands⟩ cx) (unary number ⟨mnemonic, operands'⟩ cx) := by
  rcases h with _ | ⟨hdst, _ | ⟨hsecond, hrest⟩⟩
  · exact .refl _
  · cases hdst with
    | memory hm => exact .bind (hm.memoryWidth ..) fun _ => hm.onMemory ..
    | _ => exact .refl _
  · cases hdst <;> exact .error rfl

theorem imul_respelled : SameOutcome (imul ⟨.imul, operands⟩ cx) (imul ⟨.imul, operands'⟩ cx) := by
  rcases h with _ | ⟨hdst, _ | ⟨hsrc, _ | ⟨hthird, _ | ⟨hfourth, hrest⟩⟩⟩⟩
  · exact .refl _
  · exact unary_respelled (.cons hdst .nil) cx 5 .imul
  · cases hdst with
    | register dst =>
      cases hsrc with
      | memory hm => exact .bind (.refl _) fun _ => hm.onMemory ..
      | _ => exact .refl _
    | _ => exact .error rfl
  · cases hdst with
    | register dst =>
      cases hthird with
      | immediate v =>
        cases hsrc with
        | memory hm => exact .bind (.refl _) fun _ => .bind_left (hm.onMemory ..) _
        | _ => exact .refl _
      | _ => exact .error rfl
    | _ => cases hthird <;> exact .error rfl
  · cases hdst <;> cases hthird <;> exact .error rfl

theorem step_respelled (op : StepOp) :
    SameOutcome (step op ⟨.step op, operands⟩ cx) (step op ⟨.step op, operands'⟩ cx) := by
  rcases h with _ | ⟨hdst, _ | ⟨hsecond, hrest⟩⟩
  · exact .refl _
  · cases hdst with
    | memory hm => exact .bind (hm.memoryWidth ..) fun _ => hm.onMemory ..
    | _ => exact .refl _
  · cases hdst <;> exact .error rfl

theorem shift_respelled (op : ShiftOp) :
    SameOutcome (shift op ⟨.shift op, operands⟩ cx) (shift op ⟨.shift op, operands'⟩ cx) := by
  rcases h with _ | ⟨hdst, _ | ⟨hcount, _ | ⟨hthird, hrest⟩⟩⟩
  · exact .refl _
  · exact .error rfl
  · cases hdst with
    | memory hm =>
      exact .bind (hm.memoryWidth ..) fun _ => .bind (shiftCount_respelled hcount ..) fun _ =>
        .bind_left (hm.onMemory ..) _
    | register r =>
      exact .bind (.refl _) fun _ => .bind_left (shiftCount_respelled hcount ..) _
    | _ => exact .error rfl
  · exact .error rfl

theorem setcc_respelled (condition : Condition) :
    SameOutcome (setcc condition ⟨.setcc condition, operands⟩ cx)
      (setcc condition ⟨.setcc condition, operands'⟩ cx) := by
  rcases h with _ | ⟨hdst, _ | ⟨hsecond, hrest⟩⟩
  · exact .refl _
  · cases hdst with
    | memory hm =>
      simp only [setcc, hm.size]
      exact .ite (hm.onMemory ..) (.refl _)
    | _ => exact .refl _
  · cases hdst <;> exact .error rfl

theorem push_respelled : SameOutcome (push ⟨.push, operands⟩ cx) (push ⟨.push, operands'⟩ cx) := by
  rcases h with _ | ⟨hop, _ | ⟨hsecond, hrest⟩⟩
  · exact .refl _
  · cases hop with
    | memory hm => exact .bind (hm.memoryWidth ..) fun _ => .ite (.refl _) (hm.onMemory ..)
    | _ => exact .refl _
  · cases hop with
    | register r => cases r <;> exact .error rfl
    | _ => exact .error rfl

theorem pop_respelled : SameOutcome (pop ⟨.pop, operands⟩ cx) (pop ⟨.pop, operands'⟩ cx) := by
  rcases h with _ | ⟨hop, _ | ⟨hsecond, hrest⟩⟩
  · exact .refl _
  · cases hop with
    | memory hm => exact .bind (hm.memoryWidth ..) fun _ => .ite (.refl _) (hm.onMemory ..)
    | _ => exact .refl _
  · cases hop with
    | register r => cases r <;> exact .error rfl
    | _ => exact .error rfl

theorem jmp_respelled : SameOutcome (jmp ⟨.jmp, operands⟩ cx) (jmp ⟨.jmp, operands'⟩ cx) := by
  rcases h with _ | ⟨hop, _ | ⟨hsecond, hrest⟩⟩
  · exact .refl _
  · cases hop with
    | label hname => exact branch_respelled ..
    | memory hm => exact indirect_respelled (.memory hm) cx 4 .jmp
    | _ => exact .refl _
  · cases hop <;> exact .error rfl

theorem call_respelled : SameOutcome (call ⟨.call, operands⟩ cx) (call ⟨.call, operands'⟩ cx) := by
  rcases h with _ | ⟨hop, _ | ⟨hsecond, hrest⟩⟩
  · exact .refl _
  · cases hop with
    | label hname => exact branch_respelled ..
    | memory hm => exact indirect_respelled (.memory hm) cx 2 .call
    | _ => exact .refl _
  · cases hop <;> exact .error rfl

theorem jcc_respelled (condition : Condition) :
    SameOutcome (jcc condition ⟨.jcc condition, operands⟩ cx)
      (jcc condition ⟨.jcc condition, operands'⟩ cx) := by
  rcases h with _ | ⟨hop, _ | ⟨hsecond, hrest⟩⟩
  · exact .refl _
  · cases hop with
    | label hname => exact branch_respelled ..
    | _ => exact .error rfl
  · cases hop <;> exact .error rfl

theorem table_respelled (op : TableOp) :
    SameOutcome (table op ⟨.table op, operands⟩ cx) (table op ⟨.table op, operands'⟩ cx) := by
  rcases h with _ | ⟨hop, _ | ⟨hsecond, hrest⟩⟩
  · exact .refl _
  · cases hop with
    | memory hm => exact hm.onMemory ..
    | _ => exact .error rfl
  · cases hop <;> exact .error rfl

omit cx

theorem ret_respelled : SameOutcome (ret ⟨.ret, operands⟩) (ret ⟨.ret, operands'⟩) := by
  rcases h with _ | ⟨hop, _ | ⟨hsecond, hrest⟩⟩
  · exact .refl _
  · cases hop <;> exact .refl _
  · cases hop <;> exact .error rfl

theorem int_respelled : SameOutcome (int ⟨.int, operands⟩) (int ⟨.int, operands'⟩) := by
  rcases h with _ | ⟨hop, _ | ⟨hsecond, hrest⟩⟩
  · exact .refl _
  · cases hop <;> exact .refl _
  · cases hop <;> exact .error rfl

theorem input_respelled : SameOutcome (input ⟨.input, operands⟩) (input ⟨.input, operands'⟩) := by
  rcases h with _ | ⟨hdst, _ | ⟨hsrc, _ | ⟨hthird, hrest⟩⟩⟩
  · exact .refl _
  · cases hdst <;> exact .error rfl
  · cases hdst with
    | register r => cases hsrc <;> exact .refl _
    | _ => exact .error rfl
  · cases hdst <;> exact .error rfl

theorem output_respelled :
    SameOutcome (output ⟨.output, operands⟩) (output ⟨.output, operands'⟩) := by
  rcases h with _ | ⟨hdst, _ | ⟨hsrc, _ | ⟨hthird, hrest⟩⟩⟩
  · exact .refl _
  · exact .error rfl
  · cases hsrc with
    | register r => cases hdst <;> exact .refl _
    | _ => exact .error rfl
  · cases hsrc <;> exact .error rfl

theorem plain_respelled (op : PlainOp) :
    SameOutcome (plain op ⟨.plain op, operands⟩) (plain op ⟨.plain op, operands'⟩) := by
  cases h with
  | nil => exact .refl _
  | cons hop hrest => exact .error rfl

end Encoding

namespace Instruction.Respelled

variable {i i' : Instruction} (h : i.Respelled R i')
include h

/-- **An encoding does not depend on the names of labels**, nor does the kind of an error. -/
theorem encoding (cx : Context) : SameOutcome (i.encoding cx) (i'.encoding cx) := by
  obtain ⟨mnemonic, operands⟩ := i
  obtain ⟨mnemonic', operands'⟩ := i'
  obtain ⟨hmnemonic, h⟩ := h
  obtain rfl : mnemonic' = mnemonic := hmnemonic
  cases mnemonic' with
  | mov => exact Encoding.mov_respelled h cx
  | movzx => exact Encoding.movExtending_respelled h cx ..
  | movsx => exact Encoding.movExtending_respelled h cx ..
  | lea => exact Encoding.lea_respelled h cx
  | xchg => exact Encoding.xchg_respelled h cx
  | arithmetic op => exact Encoding.arithmetic_respelled h cx op
  | test => exact Encoding.test_respelled h cx
  | unary op => exact Encoding.unary_respelled h cx ..
  | imul => exact Encoding.imul_respelled h cx
  | step op => exact Encoding.step_respelled h cx op
  | shift op => exact Encoding.shift_respelled h cx op
  | push => exact Encoding.push_respelled h cx
  | pop => exact Encoding.pop_respelled h cx
  | call => exact Encoding.call_respelled h cx
  | ret => exact Encoding.ret_respelled h
  | jmp => exact Encoding.jmp_respelled h cx
  | jcc condition => exact Encoding.jcc_respelled h cx condition
  | setcc condition => exact Encoding.setcc_respelled h cx condition
  | input => exact Encoding.input_respelled h
  | output => exact Encoding.output_respelled h
  | int => exact Encoding.int_respelled h
  | table op => exact Encoding.table_respelled h cx op
  | plain op => exact Encoding.plain_respelled h op

theorem encode (cx : Context) : SameOutcome (i.encode cx) (i'.encode cx) :=
  .bind_left (h.encoding cx) _

theorem length (mode : Mode) (form : BranchForm) :
    SameOutcome (i.length mode form) (i'.length mode form) :=
  .bind_left (h.encode _) _

end Instruction.Respelled

end BootImage
