import BootImage.Proofs.Decoding.RoundTrip
import BootImage.Proofs.Overrides

/-!
# What the mode changes in an instruction

The parts of an instruction do not depend on the mode, except for the distance in a branch to a
label, for a pushed constant and for an address without registers, which all take the size of the
mode. So in the two modes an instruction is refused for the same reason, or its bytes differ in the
size overrides at most. An override of the address size stands in one of them if there is a memory
operand, and one of the operand size if the instruction works on words or dwords.

* `Instruction.operandWidth?` — the width that an instruction can be told to work at.
* `Instruction.overridesIn` — the overrides that it takes in a mode.
* `ModeFree` — an encoder gives the same parts in both modes, and these call for the overrides.
* `mov_modeFree`, `arithmetic_modeFree`, … — one lemma for each encoder.
* `Instruction.modes_differ_in_size_overrides` — every instruction but those three.
-/

namespace BootImage

/-! ## Overrides of an instruction -/

/-- The segment that a segment register stands for. -/
def Register.segment? : Register → Option Segment
  | segment s => some s
  | general _ _ => none

/-- The width at which operands are worked on: that of a register among them, or else that of a
memory operand. -/
def Operand.ownWidth? (operands : List Operand) : Option Width :=
  operands.findSome? generalWidth? <|>
    operands.findSome? fun op => op.memory?.bind (·.size.width?)

/-- With no register among the operands, the first memory operand counts. -/
theorem Operand.ownWidth?_memory {m : Memory} {w : Width} {operands : List Operand}
    (h : m.size.width? = some w) (hoperands : operands.findSome? generalWidth? = none) :
    ownWidth? (memory m :: operands) = some w := by
  simp [ownWidth?, List.findSome?, generalWidth?, hoperands, memory?, h]

/-- The width of an instruction without operands that has a 16-bit reading. -/
def PlainOp.operandWidth? : PlainOp → Option Width
  | iretd | pushad | popad | pushfd | popfd | cdq => some .dword
  | nop | hlt | cli | sti | cld | std | leave | int3 => none

namespace Instruction

/-- The width at which an instruction works, if its encoding depends on one. Loading a segment
register, storing one to memory and loading a descriptor table have no width, and neither the count
of a shift nor an I/O address has a say in it. -/
def operandWidth? (i : Instruction) : Option Width :=
  match i.mnemonic, i.operands with
  | .mov, [.register (.segment _), _] | .mov, [.memory _, .register (.segment _)] => none
  | .table _, _ => none
  | .plain op, _ => op.operandWidth?
  | .shift _, dst :: _ => Operand.ownWidth? [dst]
  | .output, _ :: src => Operand.ownWidth? src
  | _, operands => Operand.ownWidth? operands

/-- The overrides of an instruction in code of the given mode: of the segment that the memory
operand names, of the address size if its registers are not of the size of the mode, and of the
operand size if the width is not that of the mode. -/
def overridesIn (i : Instruction) (mode : Mode) : List UInt8 :=
  ((i.memory?.bind fun m => m.segment.bind Register.segment?).map Segment.overrideByte).toList ++
    (if i.memory?.any (·.locationSize mode != mode) then [0x67] else []) ++
    (if i.operandWidth?.any (·.needsOverride mode) then [0x66] else [])

end Instruction

/-! ## Parts without a mode -/

/-- The same surroundings in code of another mode. -/
def Context.inMode (cx : Context) (mode : Mode) : Context :=
  { cx with mode }

/-- The parts of an instruction with the given memory operand and width. -/
structure Encoding.Sized (memory : Option Memory) (width : Option Width) (e : Encoding) :
    Prop where
  segment_eq : e.segment = memory.bind fun m => m.segment.bind Register.segment?
  addressSize_eq : ∀ mode, e.addressSize = memory.map (·.locationSize mode)
  width_eq : e.width = width
  opcode_eq : e.opcode.isOverride = false

/-- In two modes, an encoder gives the same error, or the same parts with the given memory operand
and width. -/
structure ModeFree (memory : Option Memory) (width : Option Width)
    (x y : Except AssemblyError Encoding) : Prop where
  same : x = y
  sized : ∀ e, x = .ok e → e.Sized memory width

namespace ModeFree

variable {memory : Option Memory} {width : Option Width} {x y x' y' : Except AssemblyError Encoding}
  {α : Type}

theorem error {err : AssemblyError} : ModeFree memory width (.error err) (.error err) where
  same := rfl
  sized := nofun

theorem bind {step : Except AssemblyError α} {f g : α → Except AssemblyError Encoding}
    (h : ∀ a, step = .ok a → ModeFree memory width (f a) (g a)) :
    ModeFree memory width (step >>= f) (step >>= g) := by
  cases step with
  | error err => exact .error
  | ok a => exact h a rfl

theorem ite {p : Prop} [Decidable p] (h : p → ModeFree memory width x y)
    (h' : ¬p → ModeFree memory width x' y') :
    ModeFree memory width (if p then x else x') (if p then y else y') := by
  by_cases hp : p
  · simpa only [if_pos hp] using h hp
  · simpa only [if_neg hp] using h' hp

theorem generalWidth {i : Instruction} {r : Register} {f g : Width → Except AssemblyError Encoding}
    (h : ∀ w n, r = .general w n → ModeFree memory width (f w) (g w)) :
    ModeFree memory width (i.generalWidth r >>= f) (i.generalWidth r >>= g) :=
  .bind fun w hw =>
    have ⟨n, hr⟩ := Instruction.general_of_generalWidth hw
    h w n hr

theorem memoryWidth {i : Instruction} {m : Memory} {f g : Width → Except AssemblyError Encoding}
    (hwidth : ∀ w, m.size.width? = some w → width = some w)
    (h : ∀ w, ModeFree memory (some w) (f w) (g w)) :
    ModeFree memory width (i.memoryWidth m >>= f) (i.memoryWidth m >>= g) :=
  .bind fun w hw => hwidth w (Encoding.memoryWidth_eq_ok.1 hw) ▸ h w

/-- A field behind the other parts changes none of them. -/
theorem withImmediate (h : ModeFree memory width x y) (w : Width) (v : Int) :
    ModeFree memory width (x >>= fun e => e.withImmediate w v)
      (y >>= fun e => e.withImmediate w v) where
  same := by rw [h.same]
  sized e he := by
    obtain ⟨e', he', hfield⟩ := bind_eq_ok.1 he
    obtain ⟨field, -, hok⟩ := bind_eq_ok.1 hfield
    cases hok
    obtain ⟨hsegment, hsize, hwidth, hopcode⟩ := h.sized e' he'
    exact ⟨hsegment, hsize, hwidth, hopcode⟩

/-- The same for the constant of a shift, if there is one. -/
theorem constant (h : ModeFree memory width x y) (v : Option Int) :
    ModeFree memory width
      (x >>= fun e => match v with
        | none => pure e
        | some v => e.withImmediate .byte v)
      (y >>= fun e => match v with
        | none => pure e
        | some v => e.withImmediate .byte v) := by
  cases v with
  | none => simpa only [bind_pure] using h
  | some v => exact h.withImmediate .byte v

theorem opcode {o : Opcode} (h : o.isOverride = false) :
    ModeFree none width (.ok { width, opcode := o }) (.ok { width, opcode := o }) where
  same := rfl
  sized := by
    rintro e ⟨⟩
    exact ⟨rfl, fun _ => rfl, rfl, h⟩

theorem onRegister {o : Opcode} (reg : Nat) (rm : Register) (h : o.isOverride = false) :
    ModeFree none width (.ok (Encoding.onRegister width o reg rm))
      (.ok (Encoding.onRegister width o reg rm)) where
  same := rfl
  sized := by
    rintro e ⟨⟩
    exact ⟨rfl, fun _ => rfl, rfl, h⟩

theorem onPair {i : Instruction} {o : Opcode} {rm reg : Register} (h : o.isOverride = false)
    (hwidth : ∀ w a b, rm = .general w a → reg = .general w b → width = some w) :
    ModeFree none width (Encoding.onPair i o rm reg) (Encoding.onPair i o rm reg) where
  same := rfl
  sized e he := by
    obtain ⟨w, a, b, rfl, rfl, rfl⟩ := Encoding.onPair_eq_ok.1 he
    exact ⟨rfl, fun _ => rfl, (hwidth w a b rfl rfl).symm, h⟩

end ModeFree

/-! ## Memory operands -/

/-- The address is formed with a register, which fixes its size. -/
def Memory.HasRegister (m : Memory) : Prop :=
  m.base.isSome ∨ m.index.isSome

namespace Memory.HasRegister

variable {m : Memory} (h : m.HasRegister)
include h

theorem addressSize_eq (mode mode' : Mode) : m.addressSize mode = m.addressSize mode' := by
  unfold addressSize
  cases hb : m.base <;> cases hi : m.index
  case none.none => simp [HasRegister, hb, hi] at h
  all_goals rfl

theorem locationSize_eq (mode mode' : Mode) : m.locationSize mode = m.locationSize mode' := by
  unfold locationSize
  cases hb : m.base <;> cases hi : m.index
  case none.none => simp [HasRegister, hb, hi] at h
  all_goals rfl

theorem addressing_eq (mode mode' : Mode) (symbol : Option Int) (reg : Nat) :
    m.addressing mode symbol reg = m.addressing mode' symbol reg := by
  rw [addressing, addressing, h.addressSize_eq mode mode']

/-- A memory operand with registers has the same parts in both modes. -/
theorem onMemory_modeFree (cx : Context) {mode mode' : Mode} {width : Option Width} {o : Opcode}
    (reg : Nat) (ho : o.isOverride = false) :
    ModeFree (some m) width (Encoding.onMemory (cx.inMode mode) width o reg m)
      (Encoding.onMemory (cx.inMode mode') width o reg m) where
  same := by
    unfold Encoding.onMemory
    simp only [Context.inMode, h.addressSize_eq mode mode', h.addressing_eq mode mode']
  sized e he := by
    obtain ⟨segment, hsegment, he⟩ := bind_eq_ok.1 he
    obtain ⟨size, hsize, he⟩ := bind_eq_ok.1 he
    obtain ⟨a, -, he⟩ := bind_eq_ok.1 he
    cases he
    obtain ⟨hlocation, -⟩ := addressSize_eq_ok hsize
    refine ⟨?_, fun mode'' => ?_, rfl, ho⟩
    · rw [Option.bind_some, ← segmentOverride_eq_ok hsegment]
      cases segment <;> rfl
    · rw [Option.map_some, h.locationSize_eq mode'' (cx.inMode mode).mode, hlocation]

end Memory.HasRegister

namespace Encoding

open Instruction Operand

variable {mode mode' : Mode} (cx : Context) {operands : List Operand}
  (h : ∀ m, .memory m ∈ operands → m.HasRegister)

/-! ## Data movement -/

section

include h

theorem mov_modeFree :
    ModeFree (memory? ⟨.mov, operands⟩) (operandWidth? ⟨.mov, operands⟩)
      (mov ⟨.mov, operands⟩ (cx.inMode mode)) (mov ⟨.mov, operands⟩ (cx.inMode mode')) := by
  -- The mode only selects the size prefixes, so each shape has the same frame in both modes.
  rcases operands with _ | ⟨dst, _ | ⟨src, _ | ⟨third, rest⟩⟩⟩
  · exact .error
  · cases dst <;> exact .error
  · cases dst with
    | register dst =>
      cases src with
      | register src =>
        cases dst with
        | segment s => exact .ite (fun _ => .error) fun _ => .onRegister _ _ rfl
        | general w n =>
          cases src with
          | segment s => exact .ite (fun _ => .error) fun _ => .onRegister _ _ rfl
          | general w' n' =>
            refine .onPair (by cases w <;> rfl) ?_
            rintro w a b ⟨⟩ -
            rfl
      | memory m =>
        have hm := h m (by simp)
        cases dst with
        | segment s => exact hm.onMemory_modeFree cx _ rfl
        | general w n => exact hm.onMemory_modeFree cx _ (by cases w <;> rfl)
      | _ =>
        refine .generalWidth ?_
        rintro w n rfl
        refine .withImmediate (.opcode (Opcode.isOverride_register _ ?_)) _ _
        cases w <;> decide
    | memory m =>
      have hm := h m (by simp)
      cases src with
      | register src =>
        cases src with
        | segment s => exact hm.onMemory_modeFree cx _ rfl
        | general w n => exact hm.onMemory_modeFree cx _ (by cases w <;> rfl)
      | memory m' => exact .error
      | _ =>
        refine .memoryWidth (fun w hw => ownWidth?_memory hw rfl) fun w => ?_
        refine .withImmediate (hm.onMemory_modeFree cx _ ?_) _ _
        cases w <;> rfl
    | _ => cases src <;> exact .error
  · cases dst <;> cases src <;> exact .error

theorem movExtending_modeFree {byteOpcode : Nat} {mnemonic : Mnemonic}
    (hwidth : operandWidth? ⟨mnemonic, operands⟩ = ownWidth? operands) :
    ModeFree (memory? ⟨mnemonic, operands⟩) (operandWidth? ⟨mnemonic, operands⟩)
      (movExtending byteOpcode ⟨mnemonic, operands⟩ (cx.inMode mode))
      (movExtending byteOpcode ⟨mnemonic, operands⟩ (cx.inMode mode')) := by
  rw [hwidth]
  rcases operands with _ | ⟨dst, _ | ⟨src, _ | ⟨third, rest⟩⟩⟩
  · exact .error
  · cases dst <;> exact .error
  · cases dst with
    | register dst =>
      cases src with
      | register src =>
        refine .generalWidth ?_
        rintro w n rfl
        exact .bind fun _ _ => .ite (fun _ => .onRegister _ _ rfl) fun _ => .error
      | memory m =>
        refine .generalWidth ?_
        rintro w n rfl
        exact .bind fun _ _ =>
          .ite (fun _ => (h m (by simp)).onMemory_modeFree cx _ rfl) fun _ => .error
      | _ => exact .bind fun _ _ => .error
    | _ => exact .error
  · cases dst <;> cases src <;> exact .error

theorem lea_modeFree :
    ModeFree (memory? ⟨.lea, operands⟩) (operandWidth? ⟨.lea, operands⟩)
      (lea ⟨.lea, operands⟩ (cx.inMode mode)) (lea ⟨.lea, operands⟩ (cx.inMode mode')) := by
  rcases operands with _ | ⟨dst, _ | ⟨src, _ | ⟨third, rest⟩⟩⟩
  · exact .error
  · cases dst <;> exact .error
  · cases dst with
    | register dst =>
      cases src with
      | memory m =>
        refine .generalWidth ?_
        rintro w n rfl
        exact .ite (fun _ => .error) fun _ => (h m (by simp)).onMemory_modeFree cx _ rfl
      | _ => exact .error
    | _ => exact .error
  · cases dst <;> cases src <;> exact .error

theorem xchg_modeFree :
    ModeFree (memory? ⟨.xchg, operands⟩) (operandWidth? ⟨.xchg, operands⟩)
      (xchg ⟨.xchg, operands⟩ (cx.inMode mode)) (xchg ⟨.xchg, operands⟩ (cx.inMode mode')) := by
  rcases operands with _ | ⟨a, _ | ⟨b, _ | ⟨third, rest⟩⟩⟩
  · exact .error
  · cases a <;> exact .error
  · cases a with
    | register a =>
      cases b with
      | register b =>
        refine .generalWidth ?_
        rintro w n rfl
        refine .bind fun _ _ => .ite (fun _ => .error) fun _ => .ite (fun _ => ?_) fun _ => ?_
        · exact .opcode (Opcode.isOverride_register _ (by decide))
        · exact .onRegister _ _ (by cases w <;> rfl)
      | memory m =>
        refine .generalWidth ?_
        rintro w n rfl
        exact (h m (by simp)).onMemory_modeFree cx _ (by cases w <;> rfl)
      | _ => exact .error
    | memory m =>
      cases b with
      | register b =>
        refine .generalWidth ?_
        rintro w n rfl
        exact (h m (by simp)).onMemory_modeFree cx _ (by cases w <;> rfl)
      | _ => exact .error
    | _ => cases b <;> exact .error
  · cases a <;> cases b <;> exact .error

/-! ## Arithmetic and logic -/

omit h in
theorem arithmeticConstant_modeFree (op : ArithmeticOp) (w : Width) (n : Fin 8) (imm : Immediate) :
    ModeFree none (some w) (arithmeticConstant op (.general w n) w imm)
      (arithmeticConstant op (.general w n) w imm) := by
  refine .ite (fun _ => .ite (fun _ => ?_) fun _ => ?_) fun _ =>
    .ite (fun _ => ?_) fun _ => .ite (fun _ => ?_) fun _ => ?_
  · exact .withImmediate (.opcode (by cases op <;> rfl)) _ _
  · exact .withImmediate (.onRegister _ _ rfl) _ _
  · exact .withImmediate (.onRegister _ _ rfl) _ _
  · exact .withImmediate (.opcode (by cases op <;> rfl)) _ _
  · exact .withImmediate (.onRegister _ _ rfl) _ _

theorem arithmetic_modeFree (op : ArithmeticOp) :
    ModeFree (memory? ⟨.arithmetic op, operands⟩) (operandWidth? ⟨.arithmetic op, operands⟩)
      (arithmetic op ⟨.arithmetic op, operands⟩ (cx.inMode mode))
      (arithmetic op ⟨.arithmetic op, operands⟩ (cx.inMode mode')) := by
  rcases operands with _ | ⟨dst, _ | ⟨src, _ | ⟨third, rest⟩⟩⟩
  · exact .error
  · cases dst <;> exact .error
  · cases dst with
    | register dst =>
      cases src with
      | register src =>
        refine .onPair (by cases op <;> cases dst.width <;> rfl) ?_
        rintro w a b rfl -
        rfl
      | memory m =>
        refine .generalWidth ?_
        rintro w n rfl
        exact (h m (by simp)).onMemory_modeFree cx _ (by cases op <;> cases w <;> rfl)
      | _ =>
        refine .generalWidth ?_
        rintro w n rfl
        exact arithmeticConstant_modeFree ..
    | memory m =>
      have hm := h m (by simp)
      cases src with
      | register src =>
        refine .generalWidth ?_
        rintro w n rfl
        exact hm.onMemory_modeFree cx _ (by cases op <;> cases w <;> rfl)
      | memory m' => exact .error
      | _ =>
        -- Without a register the access tells the width, which is not a matter of the mode.
        refine .memoryWidth (fun w hw => ownWidth?_memory hw rfl) fun w =>
          .ite (fun _ => ?_) fun _ => .ite (fun _ => ?_) fun _ => ?_
        all_goals exact .withImmediate (hm.onMemory_modeFree cx _ rfl) _ _
    | _ => cases src <;> exact .error
  · cases dst <;> cases src <;> exact .error

theorem test_modeFree :
    ModeFree (memory? ⟨.test, operands⟩) (operandWidth? ⟨.test, operands⟩)
      (test ⟨.test, operands⟩ (cx.inMode mode)) (test ⟨.test, operands⟩ (cx.inMode mode')) := by
  rcases operands with _ | ⟨dst, _ | ⟨src, _ | ⟨third, rest⟩⟩⟩
  · exact .error
  · cases dst <;> exact .error
  · cases dst with
    | register dst =>
      cases src with
      | register src =>
        refine .onPair (by cases dst.width <;> rfl) ?_
        rintro w a b rfl -
        rfl
      | memory m =>
        refine .generalWidth ?_
        rintro w n rfl
        exact (h m (by simp)).onMemory_modeFree cx _ (by cases w <;> rfl)
      | _ =>
        refine .generalWidth ?_
        rintro w n rfl
        refine .ite (fun _ => ?_) fun _ => ?_
        · exact .withImmediate (.opcode (by cases w <;> rfl)) _ _
        · exact .withImmediate (.onRegister _ _ (by cases w <;> rfl)) _ _
    | memory m =>
      have hm := h m (by simp)
      cases src with
      | register src =>
        refine .generalWidth ?_
        rintro w n rfl
        exact hm.onMemory_modeFree cx _ (by cases w <;> rfl)
      | memory m' => exact .error
      | _ =>
        refine .memoryWidth (fun w hw => ownWidth?_memory hw rfl) fun w => ?_
        refine .withImmediate (hm.onMemory_modeFree cx _ ?_) _ _
        cases w <;> rfl
    | _ => cases src <;> exact .error
  · cases dst <;> cases src <;> exact .error

theorem unary_modeFree (number : Nat) {mnemonic : Mnemonic}
    (hwidth : operandWidth? ⟨mnemonic, operands⟩ = ownWidth? operands) :
    ModeFree (memory? ⟨mnemonic, operands⟩) (operandWidth? ⟨mnemonic, operands⟩)
      (unary number ⟨mnemonic, operands⟩ (cx.inMode mode))
      (unary number ⟨mnemonic, operands⟩ (cx.inMode mode')) := by
  rw [hwidth]
  rcases operands with _ | ⟨dst, _ | ⟨second, rest⟩⟩
  · exact .error
  · cases dst with
    | register r =>
      refine .generalWidth ?_
      rintro w n rfl
      exact .onRegister _ _ (by cases w <;> rfl)
    | memory m =>
      refine .memoryWidth (fun w hw => ownWidth?_memory hw rfl) fun w => ?_
      exact (h m (by simp)).onMemory_modeFree cx _ (by cases w <;> rfl)
    | _ => exact .error
  · cases dst <;> exact .error

theorem imul_modeFree :
    ModeFree (memory? ⟨.imul, operands⟩) (operandWidth? ⟨.imul, operands⟩)
      (imul ⟨.imul, operands⟩ (cx.inMode mode)) (imul ⟨.imul, operands⟩ (cx.inMode mode')) := by
  rcases operands with _ | ⟨dst, _ | ⟨src, _ | ⟨third, _ | ⟨fourth, rest⟩⟩⟩⟩
  · exact .error
  · exact unary_modeFree cx h 5 rfl
  · cases dst with
    | register dst =>
      refine .bind fun w hw => ?_
      obtain ⟨-, n, rfl⟩ := imulWidth_eq_ok hw
      cases src with
      | register src =>
        refine .onPair rfl ?_
        rintro w a b - ⟨⟩
        rfl
      | memory m => exact (h m (by simp)).onMemory_modeFree cx _ rfl
      | _ => exact .error
    | _ => exact .error
  · cases dst with
    | register dst =>
      cases third with
      | immediate v =>
        refine .bind fun w hw => ?_
        obtain ⟨-, n, rfl⟩ := imulWidth_eq_ok hw
        cases src with
        | register src =>
          refine .withImmediate (.onPair (by split <;> rfl) ?_) _ _
          rintro w a b - ⟨⟩
          rfl
        | memory m =>
          exact .withImmediate ((h m (by simp)).onMemory_modeFree cx _ (by split <;> rfl)) _ _
        | _ => exact .error
      | _ => exact .error
    | _ => cases third <;> exact .error
  · cases dst <;> cases third <;> exact .error

theorem step_modeFree (op : StepOp) :
    ModeFree (memory? ⟨.step op, operands⟩) (operandWidth? ⟨.step op, operands⟩)
      (step op ⟨.step op, operands⟩ (cx.inMode mode))
      (step op ⟨.step op, operands⟩ (cx.inMode mode')) := by
  rcases operands with _ | ⟨dst, _ | ⟨second, rest⟩⟩
  · exact .error
  · cases dst with
    | register r =>
      refine .generalWidth ?_
      rintro w n rfl
      refine .ite (fun _ => .onRegister _ _ rfl) fun _ => .opcode ?_
      exact Opcode.isOverride_register _ (by cases op <;> decide)
    | memory m =>
      refine .memoryWidth (fun w hw => ownWidth?_memory hw rfl) fun w => ?_
      exact (h m (by simp)).onMemory_modeFree cx _ (by cases w <;> rfl)
    | _ => exact .error
  · cases dst <;> exact .error

omit h in
/-- A count that a shift takes is no memory operand, and its opcode is no override. -/
theorem shiftCount_modeFree {i : Instruction} {count : Operand} {amount : Nat × Option Int}
    (hcount : shiftCount i count = .ok amount) (w : Width) :
    count.memory? = none ∧ (Opcode.primary (amount.1 + w.opcodeBit)).isOverride = false := by
  obtain ⟨n, constant⟩ := amount
  rcases shiftCount_eq_ok hcount with ⟨rfl, rfl, rfl⟩ | ⟨rfl, rfl, rfl⟩ | ⟨v, rfl, rfl, rfl⟩
  all_goals exact ⟨rfl, by cases w <;> rfl⟩

theorem shift_modeFree (op : ShiftOp) :
    ModeFree (memory? ⟨.shift op, operands⟩) (operandWidth? ⟨.shift op, operands⟩)
      (shift op ⟨.shift op, operands⟩ (cx.inMode mode))
      (shift op ⟨.shift op, operands⟩ (cx.inMode mode')) := by
  rcases operands with _ | ⟨dst, _ | ⟨count, _ | ⟨third, rest⟩⟩⟩
  · exact .error
  · exact .error
  · cases dst with
    | register r =>
      refine .generalWidth ?_
      rintro w n rfl
      refine .bind fun amount hcount => ?_
      obtain ⟨hmemory, hopcode⟩ := shiftCount_modeFree hcount w
      have hnone : memory? ⟨.shift op, [.register (.general w n), count]⟩ = none := by
        rw [Instruction.memory?, List.findSome?_cons, List.findSome?_cons, hmemory]
        rfl
      rw [hnone]
      exact .constant (.onRegister _ _ hopcode) amount.2
    | memory m =>
      refine .memoryWidth (fun w hw => ownWidth?_memory hw rfl) fun w =>
        .bind fun amount hcount => ?_
      obtain ⟨-, hopcode⟩ := shiftCount_modeFree hcount w
      exact .constant ((h m (by simp)).onMemory_modeFree cx _ hopcode) amount.2
    | _ => exact .error
  · exact .error

theorem setcc_modeFree (condition : Condition) :
    ModeFree (memory? ⟨.setcc condition, operands⟩) (operandWidth? ⟨.setcc condition, operands⟩)
      (setcc condition ⟨.setcc condition, operands⟩ (cx.inMode mode))
      (setcc condition ⟨.setcc condition, operands⟩ (cx.inMode mode')) := by
  rcases operands with _ | ⟨dst, _ | ⟨second, rest⟩⟩
  · exact .error
  · cases dst with
    | register r =>
      refine .ite (fun hbyte => ?_) fun _ => .error
      cases r with
      | general w n => exact .onRegister _ _ rfl
      | segment s => cases hbyte
    | memory m =>
      refine .ite (fun hbyte => ?_) fun _ => .error
      rw [show operandWidth? ⟨.setcc condition, [.memory m]⟩ = some .byte from
        ownWidth?_memory (by rw [hbyte]; rfl) rfl]
      exact (h m (by simp)).onMemory_modeFree cx _ rfl
    | _ => exact .error
  · cases dst <;> exact .error

/-! ## Stack and control flow -/

theorem push_modeFree (hvalue : ∀ v, operands ≠ [.immediate v])
    (hlabel : ∀ name, operands ≠ [.label name]) :
    ModeFree (memory? ⟨.push, operands⟩) (operandWidth? ⟨.push, operands⟩)
      (push ⟨.push, operands⟩ (cx.inMode mode)) (push ⟨.push, operands⟩ (cx.inMode mode')) := by
  rcases operands with _ | ⟨op, _ | ⟨second, rest⟩⟩
  · exact .error
  · cases op with
    | register r =>
      cases r with
      | segment s => exact .opcode (by cases s <;> rfl)
      | general w n =>
        exact .ite (fun _ => .error) fun _ =>
          .opcode (Opcode.isOverride_register (.general w n) (by decide))
    | memory m =>
      exact .memoryWidth (fun w hw => ownWidth?_memory hw rfl) fun w =>
        .ite (fun _ => .error) fun _ => (h m (by simp)).onMemory_modeFree cx _ rfl
    | immediate v => exact absurd rfl (hvalue v)
    | label name => exact absurd rfl (hlabel name)
  · cases op with
    | register r => cases r <;> exact .error
    | _ => exact .error

theorem pop_modeFree :
    ModeFree (memory? ⟨.pop, operands⟩) (operandWidth? ⟨.pop, operands⟩)
      (pop ⟨.pop, operands⟩ (cx.inMode mode)) (pop ⟨.pop, operands⟩ (cx.inMode mode')) := by
  rcases operands with _ | ⟨op, _ | ⟨second, rest⟩⟩
  · exact .error
  · cases op with
    | register r =>
      cases r with
      | segment s =>
        cases s with
        | cs => exact .error
        | _ => exact .opcode rfl
      | general w n =>
        exact .ite (fun _ => .error) fun _ =>
          .opcode (Opcode.isOverride_register (.general w n) (by decide))
    | memory m =>
      exact .memoryWidth (fun w hw => ownWidth?_memory hw rfl) fun w =>
        .ite (fun _ => .error) fun _ => (h m (by simp)).onMemory_modeFree cx _ rfl
    | _ => exact .error
  · cases op with
    | register r => cases r <;> exact .error
    | _ => exact .error

variable (mode mode') in
omit h in
theorem indirect_modeFree (number : Nat) (i : Instruction) {op : Operand}
    (hop : ∀ m, .memory m ∈ [op] → m.HasRegister) :
    ModeFree op.memory? (ownWidth? [op])
      (indirect i (cx.inMode mode) number op) (indirect i (cx.inMode mode') number op) := by
  cases op with
  | register r =>
    refine .generalWidth ?_
    rintro w n rfl
    exact .ite (fun _ => .error) fun _ => .onRegister _ _ rfl
  | memory m =>
    have hm := hop m (by simp)
    obtain ⟨size, segment, base, index, scale, displacement⟩ := m
    cases size with
    | word => exact hm.onMemory_modeFree cx _ rfl
    | dword => exact hm.onMemory_modeFree cx _ rfl
    | _ => exact .error
  | _ => exact .error

theorem jmp_modeFree (hbranch : branchTarget? ⟨.jmp, operands⟩ = none) :
    ModeFree (memory? ⟨.jmp, operands⟩) (operandWidth? ⟨.jmp, operands⟩)
      (jmp ⟨.jmp, operands⟩ (cx.inMode mode)) (jmp ⟨.jmp, operands⟩ (cx.inMode mode')) := by
  rcases operands with _ | ⟨op, _ | ⟨second, rest⟩⟩
  · exact .error
  · have hindirect := indirect_modeFree mode mode' cx 4 ⟨.jmp, [op]⟩ h
    cases op with
    | label name => cases hbranch
    | _ => exact hindirect
  · cases op <;> exact .error

theorem call_modeFree (hbranch : branchTarget? ⟨.call, operands⟩ = none) :
    ModeFree (memory? ⟨.call, operands⟩) (operandWidth? ⟨.call, operands⟩)
      (call ⟨.call, operands⟩ (cx.inMode mode)) (call ⟨.call, operands⟩ (cx.inMode mode')) := by
  rcases operands with _ | ⟨op, _ | ⟨second, rest⟩⟩
  · exact .error
  · have hindirect := indirect_modeFree mode mode' cx 2 ⟨.call, [op]⟩ h
    cases op with
    | label name => cases hbranch
    | _ => exact hindirect
  · cases op <;> exact .error

theorem table_modeFree (op : TableOp) :
    ModeFree (memory? ⟨.table op, operands⟩) (operandWidth? ⟨.table op, operands⟩)
      (table op ⟨.table op, operands⟩ (cx.inMode mode))
      (table op ⟨.table op, operands⟩ (cx.inMode mode')) := by
  rcases operands with _ | ⟨dst, _ | ⟨second, rest⟩⟩
  · exact .error
  · cases dst with
    | memory m => exact (h m (by simp)).onMemory_modeFree cx _ rfl
    | _ => exact .error
  · cases dst <;> exact .error

end

theorem jcc_modeFree (condition : Condition) (operands : List Operand)
    (hbranch : branchTarget? ⟨.jcc condition, operands⟩ = none) :
    ModeFree (memory? ⟨.jcc condition, operands⟩) (operandWidth? ⟨.jcc condition, operands⟩)
      (jcc condition ⟨.jcc condition, operands⟩ (cx.inMode mode))
      (jcc condition ⟨.jcc condition, operands⟩ (cx.inMode mode')) := by
  rcases operands with _ | ⟨op, _ | ⟨second, rest⟩⟩
  · exact .error
  · cases op with
    | label name => cases hbranch
    | _ => exact .error
  · cases op <;> exact .error

theorem ret_modeFree (operands : List Operand) :
    ModeFree (memory? ⟨.ret, operands⟩) (operandWidth? ⟨.ret, operands⟩) (ret ⟨.ret, operands⟩)
      (ret ⟨.ret, operands⟩) := by
  rcases operands with _ | ⟨op, _ | ⟨second, rest⟩⟩
  · exact .opcode rfl
  · cases op with
    | immediate v => exact .bind fun _ _ => .withImmediate (.opcode rfl) _ _
    | _ => exact .error
  · cases op <;> exact .error

theorem int_modeFree (operands : List Operand) :
    ModeFree (memory? ⟨.int, operands⟩) (operandWidth? ⟨.int, operands⟩) (int ⟨.int, operands⟩)
      (int ⟨.int, operands⟩) := by
  rcases operands with _ | ⟨op, _ | ⟨second, rest⟩⟩
  · exact .error
  · cases op with
    | immediate v => exact .bind fun _ _ => .withImmediate (.opcode rfl) _ _
    | _ => exact .error
  · cases op <;> exact .error

/-! ## Input, output and instructions without operands -/

theorem transfer_modeFree {i : Instruction} {w : Width} {opcode : Nat} (address : Operand)
    (hopcode : opcode = 0xE4 ∨ opcode = 0xE6) :
    ModeFree address.memory? (some w) (transfer i w opcode address)
      (transfer i w opcode address) := by
  unfold transfer
  split
  · refine .bind fun _ _ => .withImmediate (.opcode ?_) _ _
    rcases hopcode with rfl | rfl <;> cases w <;> rfl
  · refine .opcode ?_
    rcases hopcode with rfl | rfl <;> cases w <;> rfl
  · exact .error

theorem input_modeFree (operands : List Operand) :
    ModeFree (memory? ⟨.input, operands⟩) (operandWidth? ⟨.input, operands⟩)
      (input ⟨.input, operands⟩) (input ⟨.input, operands⟩) := by
  rcases operands with _ | ⟨dst, _ | ⟨src, _ | ⟨third, rest⟩⟩⟩
  · exact .error
  · cases dst <;> exact .error
  · cases dst with
    | register r =>
      refine .bind fun w hw => ?_
      obtain rfl := accumulatorWidth_eq_ok hw
      have htransfer := transfer_modeFree (i := ⟨.input, [.register (.general w 0), src]⟩) (w := w)
        src (.inl rfl)
      cases src <;> exact htransfer
    | _ => exact .error
  · cases dst <;> exact .error

theorem output_modeFree (operands : List Operand) :
    ModeFree (memory? ⟨.output, operands⟩) (operandWidth? ⟨.output, operands⟩)
      (output ⟨.output, operands⟩) (output ⟨.output, operands⟩) := by
  rcases operands with _ | ⟨dst, _ | ⟨src, _ | ⟨third, rest⟩⟩⟩
  · exact .error
  · exact .error
  · cases src with
    | register r =>
      refine .bind fun w hw => ?_
      obtain rfl := accumulatorWidth_eq_ok hw
      have htransfer := transfer_modeFree (i := ⟨.output, [dst, .register (.general w 0)]⟩) (w := w)
        dst (.inr rfl)
      cases dst <;> exact htransfer
    | _ => exact .error
  · cases src <;> exact .error

theorem plain_modeFree (op : PlainOp) (operands : List Operand) :
    ModeFree (memory? ⟨.plain op, operands⟩) (operandWidth? ⟨.plain op, operands⟩)
      (plain op ⟨.plain op, operands⟩) (plain op ⟨.plain op, operands⟩) := by
  rcases operands with _ | ⟨dst, rest⟩
  · cases op <;> exact .opcode rfl
  · exact .error

end Encoding

namespace Instruction

/-- Every instruction but a branch to a label and the push of a constant has the same parts in both
modes, if its address has a register. -/
theorem encoding_modeFree (i : Instruction) (cx : Context) (mode mode' : Mode)
    (hbranch : i.branchTarget? = none) (hvalue : ∀ v, i ≠ ⟨.push, [.immediate v]⟩)
    (hlabel : ∀ name, i ≠ ⟨.push, [.label name]⟩)
    (h : ∀ m, .memory m ∈ i.operands → m.HasRegister) :
    ModeFree i.memory? i.operandWidth? (i.encoding (cx.inMode mode))
      (i.encoding (cx.inMode mode')) := by
  obtain ⟨mnemonic, operands⟩ := i
  cases mnemonic with
  | mov => exact Encoding.mov_modeFree cx h
  | movzx => exact Encoding.movExtending_modeFree cx h rfl
  | movsx => exact Encoding.movExtending_modeFree cx h rfl
  | lea => exact Encoding.lea_modeFree cx h
  | xchg => exact Encoding.xchg_modeFree cx h
  | arithmetic op => exact Encoding.arithmetic_modeFree cx h op
  | test => exact Encoding.test_modeFree cx h
  | unary op => exact Encoding.unary_modeFree cx h op.number rfl
  | imul => exact Encoding.imul_modeFree cx h
  | step op => exact Encoding.step_modeFree cx h op
  | shift op => exact Encoding.shift_modeFree cx h op
  -- A pushed number takes its width from the mode, hence the two conditions.
  | push =>
    exact Encoding.push_modeFree cx h (fun v hv => hvalue v (by rw [hv]))
      fun name hname => hlabel name (by rw [hname])
  | pop => exact Encoding.pop_modeFree cx h
  | call => exact Encoding.call_modeFree cx h hbranch
  | ret => exact Encoding.ret_modeFree operands
  | jmp => exact Encoding.jmp_modeFree cx h hbranch
  | jcc c => exact Encoding.jcc_modeFree cx c operands hbranch
  | setcc c => exact Encoding.setcc_modeFree cx h c
  | input => exact Encoding.input_modeFree operands
  | output => exact Encoding.output_modeFree operands
  | int => exact Encoding.int_modeFree operands
  | table op => exact Encoding.table_modeFree cx h op
  | plain op => exact Encoding.plain_modeFree op operands

section Sized

variable {i : Instruction} {e : Encoding} (h : e.Sized i.memory? i.operandWidth?)
include h

theorem overrides_of_sized (mode : Mode) : e.overrides mode = i.overridesIn mode := by
  rw [Encoding.overrides, Encoding.addressOverride, Encoding.operandOverride, h.segment_eq,
    h.addressSize_eq mode, h.width_eq, overridesIn, Option.any_map]

/-- A memory operand has an address of one size, which the other mode overrides. -/
theorem address_override_iff :
    Xor (0x67 ∈ e.overrides .bits16) (0x67 ∈ e.overrides .bits32) ↔
      ∃ m, .memory m ∈ i.operands := by
  have hmemory : (∃ m, .memory m ∈ i.operands) ↔ i.memory?.isSome = true := by
    rw [memory?, List.findSome?_isSome_iff]
    constructor
    · rintro ⟨m, hm⟩
      exact ⟨_, hm, rfl⟩
    · rintro ⟨op, hop, hsome⟩
      cases op with
      | memory m => exact ⟨m, hop⟩
      | _ => cases hsome
  have hsize : e.addressSize.isSome = i.memory?.isSome := by
    rw [h.addressSize_eq .bits32, Option.isSome_map]
  rw [hmemory, ← hsize, Encoding.mem_overrides_address, Encoding.mem_overrides_address]
  rcases e.addressSize with _ | _ | _ <;> simp [Xor]

/-- Words and dwords are each overridden in the other mode, and bytes in none. -/
theorem operand_override_iff :
    Xor (0x66 ∈ e.overrides .bits16) (0x66 ∈ e.overrides .bits32) ↔
      i.operandWidth? = some .word ∨ i.operandWidth? = some .dword := by
  rw [Encoding.mem_overrides_operand, Encoding.mem_overrides_operand, h.width_eq]
  rcases i.operandWidth? with _ | _ | _ | _ <;> simp [Xor, Width.needsOverride, Mode.width]

end Sized

/-- **The two modes differ in size overrides only.** Unless it is a branch to a label, pushes a
constant or has an address without registers, an instruction is refused for the same reason in both
modes, or is the same in both once the size overrides are taken out. One of the address size then
stands in exactly one of the two if there is a memory operand, and one of the operand size if the
instruction works on words or dwords. The overrides are those that the instruction calls for in the
mode: at most one of each kind, in the order segment, address size and operand size. -/
theorem modes_differ_in_size_overrides (i : Instruction) (cx : Context)
    (hbranch : i.branchTarget? = none) (hvalue : ∀ v, i ≠ ⟨.push, [.immediate v]⟩)
    (hlabel : ∀ name, i ≠ ⟨.push, [.label name]⟩)
    (haddress : ∀ m, .memory m ∈ i.operands → m.HasRegister) :
    (∃ err, i.encode (cx.inMode .bits16) = .error err ∧
      i.encode (cx.inMode .bits32) = .error err) ∨
    ∃ b b', i.encode (cx.inMode .bits16) = .ok b ∧ i.encode (cx.inMode .bits32) = .ok b' ∧
      withoutSizeOverrides b = withoutSizeOverrides b' ∧
      (Xor (0x67 ∈ overrideArea b) (0x67 ∈ overrideArea b') ↔ ∃ m, .memory m ∈ i.operands) ∧
      (Xor (0x66 ∈ overrideArea b) (0x66 ∈ overrideArea b') ↔
        i.operandWidth? = some .word ∨ i.operandWidth? = some .dword) ∧
      overrideArea b = i.overridesIn .bits16 ∧ overrideArea b' = i.overridesIn .bits32 := by
  obtain ⟨hsame, hsized⟩ :=
    i.encoding_modeFree cx .bits16 .bits32 hbranch hvalue hlabel haddress
  simp only [encode, ← hsame]
  cases he : i.encoding (cx.inMode .bits16) with
  | error err => exact .inl ⟨err, rfl, rfl⟩
  | ok e =>
    have h := hsized e he
    -- One encoding is written in both modes; only its prefixes depend on the mode.
    have hrest :
        withoutSizeOverrides (e.bytes .bits16) = withoutSizeOverrides (e.bytes .bits32) := by
      rw [Encoding.withoutSizeOverrides_bytes h.opcode_eq,
        Encoding.withoutSizeOverrides_bytes h.opcode_eq]
    refine .inr ⟨_, _, rfl, rfl, hrest, ?_⟩
    simp only [Encoding.overrideArea_bytes h.opcode_eq]
    exact ⟨address_override_iff h, operand_override_iff h, overrides_of_sized h _,
      overrides_of_sized h _⟩

/-- A word is loaded through `gs` from an address of 32 bits: each mode has the other override. -/
theorem modes_differ_in_size_overrides_load :
    ∃ b b',
      encode ⟨.mov, [.register .ax, .memory ((Memory.ofBase .word .ebx).withSegment .gs)]⟩
        { mode := .bits16 } = .ok b ∧
      encode ⟨.mov, [.register .ax, .memory ((Memory.ofBase .word .ebx).withSegment .gs)]⟩
        { mode := .bits32 } = .ok b' ∧
      withoutSizeOverrides b = withoutSizeOverrides b' ∧
      overrideArea b = [0x65, 0x67] ∧ overrideArea b' = [0x65, 0x66] := by
  have hregister : ∀ m, Operand.memory m ∈
      [.register .ax, .memory ((Memory.ofBase .word .ebx).withSegment .gs)] → m.HasRegister := by
    simp [Memory.HasRegister, Memory.withSegment, Memory.ofBase]
  obtain ⟨err, herr, -⟩ | ⟨b, b', hb, hb', hsame, -, -, harea, harea'⟩ :=
    modes_differ_in_size_overrides
      ⟨.mov, [.register .ax, .memory ((Memory.ofBase .word .ebx).withSegment .gs)]⟩ {} rfl nofun
      nofun hregister
  · cases herr
  · exact ⟨b, b', hb, hb', hsame, harea, harea'⟩

end Instruction

end BootImage
