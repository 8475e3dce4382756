import BootImage.Multiboot.Shift
import BootImage.Proofs.Execution.Machine
import Mathlib.Data.BitVec
import Mathlib.Tactic.FinCases
import Mathlib.Tactic.SplitIfs

/-!
# What the shift routines compute

The routines shift a number of 64 bits with instructions that shift 32. They share a body that takes
the count modulo 64 and goes one of three ways: nothing for a count of zero, a block for counts
below 32, where bits change from one dword to the other, and a block for counts from 32 on, where
one dword comes wholly from the other. A block has no jumps and is run at once. The body is put
together from its blocks once, for all routines that are built like this and wherever they stand in
a stream.

* `shiftLeft_append_of_lt` and the like — shifts of 64 bits by shifts of 32.
* `Code.shifts_saving` — a block may use `ebx` and `esi` if it saves them.
* `Multiboot.shiftLeftLow_shiftsKeeping` and the like — a block shifts in its range of counts.
* `Multiboot.shiftBody_returns` — the body shifts by the count modulo 64.
* `Multiboot.shiftLeft_returns`, `Multiboot.shiftRightWith_returns` — so do the routines.
* `shift_routines` — what the routines compute for their callers.
-/

namespace BootImage

attribute [local instance] neZero_registers

open Register Entry

/-! ## Numbers of two dwords -/

section Dwords

variable (hi lo : BitVec 32) {n : Nat}

/-- A shift to the left moves bits of the lower dword to the upper one. -/
theorem shiftLeft_append_of_lt (hpos : 0 < n) (hn : n < 32) :
    (hi ++ lo) <<< n = (hi <<< n ||| lo >>> (32 - n)) ++ lo <<< n := by
  apply BitVec.eq_of_getLsbD_eq
  intro i hi'
  simp only [BitVec.getLsbD_shiftLeft, BitVec.getLsbD_append, BitVec.getLsbD_or,
    BitVec.getLsbD_ushiftRight]
  split_ifs <;> grind

theorem shiftLeft_append_of_le (hn : 32 ≤ n) :
    (hi ++ lo) <<< n = lo <<< (n - 32) ++ 0#32 := by
  apply BitVec.eq_of_getLsbD_eq
  intro i hi'
  simp only [BitVec.getLsbD_shiftLeft, BitVec.getLsbD_append]
  split_ifs <;> grind

/-- A shift to the right moves bits of the upper dword to the lower one, whatever it fills with. -/
theorem shiftRight_append_of_lt {op : ShiftOp} (hop : op = .shr ∨ op = .sar) (hpos : 0 < n)
    (hn : n < 32) : op.result (hi ++ lo) n = op.result hi n ++ (lo >>> n ||| hi <<< (32 - n)) := by
  apply BitVec.eq_of_getLsbD_eq
  intro i hi'
  rcases hop with rfl | rfl <;>
    simp only [ShiftOp.result, BitVec.getLsbD_ushiftRight, BitVec.getLsbD_sshiftRight,
      BitVec.getLsbD_append, BitVec.getLsbD_or, BitVec.getLsbD_shiftLeft, BitVec.msb_append] <;>
    split_ifs <;> grind

theorem ushiftRight_append_of_le (hn : 32 ≤ n) :
    (hi ++ lo) >>> n = 0#32 ++ hi >>> (n - 32) := by
  apply BitVec.eq_of_getLsbD_eq
  intro i hi'
  simp only [BitVec.getLsbD_ushiftRight, BitVec.getLsbD_append]
  split_ifs <;> grind

theorem sshiftRight_append_of_le (hn : 32 ≤ n) :
    (hi ++ lo).sshiftRight n = hi.sshiftRight 31 ++ hi.sshiftRight (n - 32) := by
  apply BitVec.eq_of_getLsbD_eq
  intro i hi'
  simp only [BitVec.getLsbD_sshiftRight, BitVec.getLsbD_append, BitVec.msb_append]
  split_ifs <;> grind

end Dwords

/-! ## Blocks that shift -/

namespace Machine

/-- The number in `edx:eax`. -/
def wide (m : Machine) : BitVec 64 :=
  m.register 2 ++ m.register 0

/-- The dword at an offset from `esp`. -/
def argument (m : Machine) (offset : BitVec 32) : BitVec 32 :=
  m.load (m.register 4 + offset)

/-- The second machine has the same in `ebx`, `esp`, `ebp`, `esi` and `edi`, which have the numbers
from 3 on, and in memory but for the eight bytes below `esp`. -/
structure Keeps (m m' : Machine) : Prop where
  register : ∀ n : Fin 8, 3 ≤ n → m'.register n = m.register n
  memory : ∀ a, 8 ≤ (m.register 4 - 1#32 - a).toNat → m'.memory a = m.memory a

theorem Keeps.trans {m m₁ m₂ : Machine} (h : m.Keeps m₁) (h' : m₁.Keeps m₂) : m.Keeps m₂ where
  register n hn := (h'.register n hn).trans (h.register n hn)
  memory a ha := (h'.memory a (by rwa [h.register 4 (by decide)])).trans (h.memory a ha)

theorem Keeps.of_eq {m m' : Machine} (hmemory : m'.memory = m.memory)
    (hregister : ∀ n ∈ [3, 4, 5, 6, 7], m'.register n = m.register n) : m.Keeps m' where
  register n hn := by
    have hkept : ∀ n : Fin 8, 3 ≤ n → n ∈ [3, 4, 5, 6, 7] := by decide
    exact hregister n (hkept n hn)
  memory a _ := by rw [hmemory]

theorem Keeps.refl (m : Machine) : m.Keeps m :=
  .of_eq rfl fun _ _ => rfl

theorem keeps_setFlags (m : Machine) (flags : Flags) : m.Keeps (m.setFlags flags) :=
  .of_eq rfl fun _ _ => rfl

/-- With `ebx` and `esi` on the stack. -/
def saved (m : Machine) : Machine :=
  (m.push (m.register 3)).push (m.register 6)

@[simp] theorem register_saved_of_ne (m : Machine) {n : Fin 8} (h : n ≠ 4) :
    m.saved.register n = m.register n := by
  simp [saved, h]

end Machine

namespace Code

/-- The block shifts `edx:eax` by the number in `ecx` and changes neither the memory nor the given
registers. -/
def ShiftsKeeping (block : Code) (op : ShiftOp) (kept : List (Fin 8)) (m : Machine) : Prop :=
  ∃ m', block.execute? m = some m' ∧ m'.memory = m.memory ∧
    (∀ n ∈ kept, m'.register n = m.register n) ∧
    m'.wide = op.result m.wide (m.register 1).toNat

/-- The block shifts `edx:eax` by the number in `ecx` and keeps what a routine has to keep. -/
def Shifts (block : Code) (op : ShiftOp) (m : Machine) : Prop :=
  ∃ m', block.execute? m = some m' ∧ m.Keeps m' ∧ m'.wide = op.result m.wide (m.register 1).toNat

/-- From a state on, a stream runs up to a `ret` that it reaches with the given number in `edx:eax`
and with what a routine has to keep. -/
def ReturnsWide (code : Code) (s : State) (w : BitVec 64) : Prop :=
  ∃ stop m', code[stop]? = some ret ∧ code.Runs s ⟨stop, m'⟩ ∧ s.machine.Keeps m' ∧ m'.wide = w

theorem ReturnsWide.of_runs {code : Code} {s s₁ : State} {w : BitVec 64} (hruns : code.Runs s s₁)
    (hkeeps : s.machine.Keeps s₁.machine) (h : code.ReturnsWide s₁ w) : code.ReturnsWide s w := by
  obtain ⟨stop, m', hret, hruns', hkeeps', hwide⟩ := h
  exact ⟨stop, m', hret, hruns.trans hruns', hkeeps.trans hkeeps', hwide⟩

/-- The block between saving `ebx` and `esi` and restoring them. -/
def saving (block : Code) : Code :=
  [push ebx, push esi] ++ block ++ [pop esi, pop ebx]

variable {block : Code} {op : ShiftOp} {m : Machine}

theorem ShiftsKeeping.shifts (h : block.ShiftsKeeping op [3, 4, 5, 6, 7] m) :
    block.Shifts op m := by
  obtain ⟨m', hrun, hmemory, hregister, hwide⟩ := h
  exact ⟨m', hrun, .of_eq hmemory hregister, hwide⟩

/-- A block may change `ebx` and `esi` if these are saved. -/
theorem shifts_saving (h : block.ShiftsKeeping op [4, 5, 7] m.saved) :
    (saving block).Shifts op m := by
  obtain ⟨m', hrun, hmemory, hregister, hwide⟩ := h
  -- The block leaves the stack as it is, so both registers are still on top of it.
  have hesp : m'.register 4 = m.register 4 - 4#32 - 4#32 := by
    rw [hregister 4 (by decide), Machine.saved]
    simp
  have hebp := hregister 5 (by decide)
  have hedi := hregister 7 (by decide)
  have hesi : m'.load (m.register 4 - 4#32 - 4#32) = m.register 6 := by
    rw [Machine.load_congr _ hmemory]
    exact (m.push (m.register 3)).load_push (m.register 6)
  have hebx : m'.load (m.register 4 - 4#32) = m.register 3 := by
    rw [Machine.load_congr _ hmemory, Machine.saved, Machine.load_push_push]
  have hpush : execute? [push ebx, push esi] m = some m.saved := by
    simp [execute?, Machine.saved]
  have hpop : execute? [pop esi, pop ebx] m' =
      some ((((m'.setRegister 4 (m.register 4 - 4#32)).setRegister 6 (m.register 6)).setRegister 4
        (m.register 4)).setRegister 3 (m.register 3)) := by
    simp [execute?, Machine.pop?, hesp, hesi, hebx]
  have hall : (saving block).execute? m = execute? [pop esi, pop ebx] m' := by
    rw [saving, execute?_append, execute?_append, hpush, Option.bind_some, hrun, Option.bind_some]
  refine ⟨_, hall.trans hpop, ⟨fun n hn => ?register, fun a ha => ?memory⟩, ?wide⟩
  case register => fin_cases n <;> simp [hebp, hedi] at hn ⊢
  case memory =>
    simp only [Machine.memory_setRegister]
    rw [hmemory, Machine.saved, Machine.memory_push_push _ _ _ ha]
  case wide => simpa [Machine.wide] using hwide

end Code

namespace Multiboot

/-! ## The blocks of the routines -/

/-- A shift to the left by less than 32, but not by zero. -/
def shiftLeftLow : Code :=
  [mov esi eax, shl esi cl, shl edx cl, mov ebx 32, sub ebx ecx, mov ecx ebx, shr eax cl,
    or edx eax, mov eax esi]

/-- A shift to the left by 32 or more. -/
def shiftLeftHigh : Code :=
  [mov edx eax, xor eax eax, sub ecx 32, shl edx cl]

/-- A shift to the right by less than 32, but not by zero. -/
def shiftRightLow (shift : Operand → Operand → Entry) : Code :=
  [mov esi edx, shift esi cl, shr eax cl, mov ebx 32, sub ebx ecx, mov ecx ebx, shl edx cl,
    or eax edx, mov edx esi]

variable {m : Machine}

section Low

variable (hpos : 0 < (m.register 1).toNat) (hlt : (m.register 1).toNat < 32)
include hpos hlt

/-- The bits that change dwords are moved by what the count lacks to 32. -/
theorem toNat_thirtyTwo_sub : (32#32 - m.register 1).toNat % 32 = 32 - (m.register 1).toNat := by
  bv_omega

theorem shiftLeftLow_shiftsKeeping : shiftLeftLow.ShiftsKeeping .shl [4, 5, 7] m := by
  have hcount := toNat_thirtyTwo_sub hpos hlt
  have hwide := shiftLeft_append_of_lt (m.register 2) (m.register 0) hpos hlt
  simp [-BitVec.toNat_sub, Code.ShiftsKeeping, shiftLeftLow, Code.execute?, Machine.wide, hwide,
    ArithmeticOp.result, hcount, Nat.mod_eq_of_lt hlt]

theorem shiftRightLow_shiftsKeeping {op : ShiftOp} (hop : op = .shr ∨ op = .sar) :
    (shiftRightLow fun dst count => machine (.shift op) [dst, count]).ShiftsKeeping op [4, 5, 7]
      m := by
  have hcount := toNat_thirtyTwo_sub hpos hlt
  have hwide := shiftRight_append_of_lt (m.register 2) (m.register 0) hop hpos hlt
  simp [-BitVec.toNat_sub, Code.ShiftsKeeping, shiftRightLow, Code.execute?, Machine.wide, hwide,
    ArithmeticOp.result, hcount, Nat.mod_eq_of_lt hlt]

theorem saving_shiftLeftLow_shifts : (Code.saving shiftLeftLow).Shifts .shl m :=
  Code.shifts_saving (shiftLeftLow_shiftsKeeping (by simpa using hpos) (by simpa using hlt))

theorem saving_shiftRightLow_shifts {op : ShiftOp} (hop : op = .shr ∨ op = .sar) :
    (Code.saving (shiftRightLow fun dst count => machine (.shift op) [dst, count])).Shifts op m :=
  Code.shifts_saving (shiftRightLow_shiftsKeeping (by simpa using hpos) (by simpa using hlt) hop)

end Low

section High

variable (hle : 32 ≤ (m.register 1).toNat) (hlt : (m.register 1).toNat < 64)
include hle hlt

/-- What comes from the other dword is moved by what the count exceeds 32 by. -/
theorem toNat_sub_thirtyTwo : (m.register 1 - 32#32).toNat % 32 = (m.register 1).toNat - 32 := by
  bv_omega

theorem shiftLeftHigh_shiftsKeeping : shiftLeftHigh.ShiftsKeeping .shl [3, 4, 5, 6, 7] m := by
  have hcount := toNat_sub_thirtyTwo hle hlt
  have hwide := shiftLeft_append_of_le (m.register 2) (m.register 0) hle
  simp [-BitVec.toNat_sub, Code.ShiftsKeeping, shiftLeftHigh, Code.execute?, Machine.wide, hwide,
    ArithmeticOp.result, hcount]

theorem shiftRightHigh_shiftsKeeping :
    Code.ShiftsKeeping [mov eax edx, xor edx edx, sub ecx 32, shr eax cl] .shr [3, 4, 5, 6, 7]
      m := by
  have hcount := toNat_sub_thirtyTwo hle hlt
  have hwide := ushiftRight_append_of_le (m.register 2) (m.register 0) hle
  simp [-BitVec.toNat_sub, Code.ShiftsKeeping, Code.execute?, Machine.wide, hwide,
    ArithmeticOp.result, hcount]

theorem shiftArithmeticHigh_shiftsKeeping :
    Code.ShiftsKeeping [mov eax edx, sub ecx 32, sar eax cl, sar edx 31] .sar [3, 4, 5, 6, 7]
      m := by
  have hcount := toNat_sub_thirtyTwo hle hlt
  have hwide := sshiftRight_append_of_le (m.register 2) (m.register 0) hle
  simp [-BitVec.toNat_sub, Code.ShiftsKeeping, Code.execute?, Machine.wide, hwide,
    ArithmeticOp.result, hcount]

end High

/-! ## The common part of the routines -/

/-- Shifts `edx:eax` by the number in `ecx` modulo 64 and returns: by one block for counts below 32,
by another one for those from 32 on, and not at all for zero. -/
def shiftBody (exit high : String) (lowBlock highBlock : Code) : Code :=
  [and ecx 63, test ecx ecx, jz exit, cmp ecx 32, jae high] ++ lowBlock ++
    [jmp exit, .label high] ++ highBlock ++ [.label exit, ret]

theorem shiftRightWith_eq (label : String) (shift : Operand → Operand → Entry) (high : Code) :
    shiftRightWith label shift high = [.label label] ++ loadShiftArguments ++
      shiftBody (label ++ "_EXIT") (label ++ "_HI_SHIFT") (Code.saving (shiftRightLow shift))
        (mov eax edx :: high) := rfl

theorem execute?_mask (m : Machine) :
    ∃ m', Code.execute? [and ecx 63, test ecx ecx] m = some m' ∧ m.Keeps m' ∧ m'.wide = m.wide ∧
      (m'.register 1).toNat = (m.register 1).toNat % 64 ∧
      m'.flags.zero = (m'.register 1 == 0) := by
  have hmask : (m.register 1 &&& 63#32).toNat = (m.register 1).toNat % 64 :=
    Nat.and_two_pow_sub_one_eq_mod _ 6
  obtain ⟨m', hrun, hmemory, hregister, hwide, hcount, hzero⟩ : ∃ m',
      Code.execute? [and ecx 63, test ecx ecx] m = some m' ∧ m'.memory = m.memory ∧
      (∀ n ∈ [3, 4, 5, 6, 7], m'.register n = m.register n) ∧ m'.wide = m.wide ∧
      m'.register 1 = m.register 1 &&& 63#32 ∧ m'.flags.zero = (m'.register 1 == 0) := by
    simp [Code.execute?, Machine.test?, Machine.wide, ArithmeticOp.result, ArithmeticOp.flags]
  exact ⟨m', hrun, .of_eq hmemory hregister, hwide, by rw [hcount, hmask], hzero⟩

/-- Comparing the count with a number sets the carry flag if it is less. -/
theorem execute?_compare {m : Machine} {bound : Operand} {v : BitVec 32}
    (h : m.read? bound = some v) :
    ∃ m', (cmp ecx bound).execute? m = some m' ∧ m.Keeps m' ∧ m'.wide = m.wide ∧
      m'.register 1 = m.register 1 ∧
      m'.flags.carry = decide ((m'.register 1).toNat < v.toNat) := by
  refine ⟨m.setFlags (ArithmeticOp.cmp.flags m.flags.carry (m.register 1) v), ?_,
    m.keeps_setFlags _, rfl, rfl, rfl⟩
  simp [h]

/-- The body shifts if each of its blocks does in the range of counts that the flags let through to
it. -/
theorem shiftBody_returns {code lowBlock highBlock rest : Code} {exit high : String} {op : ShiftOp}
    {position : Nat}
    (hcode : code.drop position = shiftBody exit high lowBlock highBlock ++ rest)
    (hexit : code.findIdx? (·.defines exit) =
      some (position + 5 + lowBlock.length + 2 + highBlock.length))
    (hhigh : code.findIdx? (·.defines high) = some (position + 5 + lowBlock.length + 1))
    (hlowBlock : ∀ m : Machine, 0 < (m.register 1).toNat → (m.register 1).toNat < 32 →
      lowBlock.Shifts op m)
    (hhighBlock : ∀ m : Machine, 32 ≤ (m.register 1).toNat → (m.register 1).toNat < 64 →
      highBlock.Shifts op m) (m : Machine) :
    code.ReturnsWide ⟨position, m⟩ (op.result m.wide ((m.register 1).toNat % 64)) := by
  -- What the stream holds from each of the places on where the ways part and meet.
  have hbody : code.drop position = [and ecx 63, test ecx ecx] ++ (jz exit :: cmp ecx 32 ::
      jae high :: (lowBlock ++ (jmp exit :: .label high :: (highBlock ++
        (.label exit :: ret :: rest))))) := by
    rw [hcode, shiftBody]
    simp
  have hjz := Code.drop_add_length hbody
  have hcmp := Code.drop_succ hjz
  have hjae := Code.drop_succ hcmp
  have hlow := Code.drop_succ hjae
  have hjmp := Code.drop_add_length hlow
  have hlabel := Code.drop_succ hjmp
  have hhighCode := Code.drop_succ hlabel
  have hexitLabel := Code.drop_add_length hhighCode
  have hret := Code.drop_succ hexitLabel
  have hleave (m' : Machine) : code.ReturnsWide
      ⟨position + 5 + lowBlock.length + 2 + highBlock.length, m'⟩ m'.wide :=
    ⟨_, m', Code.getElem?_of_drop hret, Code.runs_entry hexitLabel rfl, .refl m', rfl⟩
  obtain ⟨m₁, hmask, hkeeps, hwide, hcount, hzero⟩ := execute?_mask m
  refine .of_runs (Code.runs_block hbody hmask) hkeeps ?_
  rw [← hwide, ← hcount]
  by_cases hnone : m₁.register 1 = 0
  case pos =>
    have hgo : (jz exit).jump? m₁ = some (exit, true) := by simp [hzero, hnone]
    refine .of_runs (Code.runs_jump hjz hgo hexit) (.refl m₁) ?_
    rw [hnone]
    simpa using hleave m₁
  case neg =>
    have hstay : (jz exit).jump? m₁ = some (exit, false) := by simpa [hzero] using hnone
    have hpos : 0 < (m₁.register 1).toNat :=
      Nat.pos_of_ne_zero fun h => hnone (BitVec.eq_of_toNat_eq h)
    obtain ⟨m₂, hcompare, hkeeps₂, hwide₂, hcount₂, hcarry⟩ :=
      execute?_compare (m₁.read?_literal 32)
    refine .of_runs ((Code.runs_fallthrough hjz hstay).trans (Code.runs_entry hcmp hcompare))
      hkeeps₂ ?_
    rw [← hwide₂, ← hcount₂]
    rw [← hcount₂] at hcount hpos
    by_cases hlt : (m₂.register 1).toNat < 32
    case pos =>
      have hstay : (jae high).jump? m₂ = some (high, false) := by simp [hcarry, hlt]
      obtain ⟨m', hrun, hkeeps', hwide'⟩ := hlowBlock m₂ hpos hlt
      rw [← hwide']
      refine .of_runs ((Code.runs_fallthrough hjae hstay).trans (Code.runs_block hlow hrun))
        hkeeps' ?_
      exact .of_runs (Code.runs_jump hjmp (Entry.jump?_jmp exit m') hexit) (.refl m') (hleave m')
    case neg =>
      have hgo : (jae high).jump? m₂ = some (high, true) := by simp [hcarry, hlt]
      obtain ⟨m', hrun, hkeeps', hwide'⟩ := hhighBlock m₂ (by omega) (by omega)
      rw [← hwide']
      have henter := (Code.runs_jump hjae hgo hhigh).trans (Code.runs_entry hlabel rfl)
      exact .of_runs (henter.trans (Code.runs_block hhighCode hrun)) hkeeps' (hleave m')

/-! ## The routines -/

/-- Loading the arguments puts the number into `edx:eax` and the count into `ecx`. -/
theorem execute?_arguments (label : String) (m : Machine) :
    ∃ m', Code.execute? ([.label label] ++ loadShiftArguments) m = some m' ∧ m.Keeps m' ∧
      m'.wide = m.argument 4 ++ m.argument 8 ∧ m'.register 1 = m.argument 12 := by
  obtain ⟨m', hrun, hmemory, hregister, hresult⟩ : ∃ m',
      Code.execute? ([.label label] ++ loadShiftArguments) m = some m' ∧ m'.memory = m.memory ∧
      (∀ n ∈ [3, 4, 5, 6, 7], m'.register n = m.register n) ∧
      m'.wide = m.argument 4 ++ m.argument 8 ∧ m'.register 1 = m.argument 12 := by
    simp [Code.execute?, loadShiftArguments, Machine.wide, Machine.argument]
  exact ⟨m', hrun, .of_eq hmemory hregister, hresult⟩

theorem toNat_or_thirtyTwo (v : BitVec 32) : (v ||| 32#32).toNat % 64 = 32 + v.toNat % 32 := by
  have hsmall : ∀ n < 64, n ||| 32 = 32 + n % 32 := by decide
  show (v.toNat ||| 32) % 2 ^ 6 = _
  rw [Nat.or_mod_two_pow]
  show v.toNat % 64 ||| 32 = _
  rw [hsmall _ (Nat.mod_lt _ (by decide)), Nat.mod_mod_of_dvd _ (by decide)]

/-- A count of 64 or more is taken for one between 32 and 63. -/
theorem execute?_cap (m : Machine) :
    ∃ m', (or ecx 0x20).execute? m = some m' ∧ m.Keeps m' ∧ m'.wide = m.wide ∧
      (m'.register 1).toNat % 64 = 32 + (m.register 1).toNat % 32 := by
  obtain ⟨m', hrun, hmemory, hregister, hwide, hcount⟩ : ∃ m',
      (or ecx 0x20).execute? m = some m' ∧ m'.memory = m.memory ∧
      (∀ n ∈ [3, 4, 5, 6, 7], m'.register n = m.register n) ∧ m'.wide = m.wide ∧
      m'.register 1 = m.register 1 ||| 32#32 := by
    simp [Machine.wide, ArithmeticOp.result]
  exact ⟨m', hrun, .of_eq hmemory hregister, hwide, by rw [hcount, toNat_or_thirtyTwo]⟩

section Routines

variable {code rest : Code} {position : Nat}

theorem shiftRightWith_returns {label : String} {op : ShiftOp} {high : Code}
    (hop : op = .shr ∨ op = .sar)
    (hhighBlock : ∀ m : Machine, 32 ≤ (m.register 1).toNat → (m.register 1).toNat < 64 →
      Code.ShiftsKeeping (mov eax edx :: high) op [3, 4, 5, 6, 7] m)
    (hcode : code.drop position =
      shiftRightWith label (fun dst count => machine (.shift op) [dst, count]) high ++ rest)
    (hexit : code.findIdx? (·.defines (label ++ "_EXIT")) = some (position + 25 + high.length))
    (hhigh : code.findIdx? (·.defines (label ++ "_HI_SHIFT")) = some (position + 23))
    (m : Machine) :
    code.ReturnsWide ⟨position, m⟩
      (op.result (m.argument 4 ++ m.argument 8) ((m.argument 12).toNat % 64)) := by
  obtain ⟨m₁, hload, hkeeps, hwide, hcount⟩ := execute?_arguments label m
  rw [shiftRightWith_eq, List.append_assoc] at hcode
  have hposition : position + 25 + high.length = position + 4 + 5 + 13 + 2 + (high.length + 1) := by
    omega
  refine .of_runs (Code.runs_block hcode hload) hkeeps ?_
  rw [← hwide, ← hcount]
  exact shiftBody_returns (Code.drop_add_length hcode) (hexit.trans (congrArg some hposition)) hhigh
    (fun m hpos hlt => saving_shiftRightLow_shifts hpos hlt hop)
    (fun m hle hlt => (hhighBlock m hle hlt).shifts) m₁

/-- The routine for a shift to the left, wherever it stands in a stream. -/
theorem shiftLeft_returns (hcode : code.drop position = shiftLeft ++ rest)
    (hstart : code.findIdx? (·.defines "LSHL_START") = some (position + 7))
    (hexit : code.findIdx? (·.defines "LSHL_EXIT") = some (position + 32))
    (hhigh : code.findIdx? (·.defines "LSHL_HI_SHIFT") = some (position + 27)) (m : Machine) :
    code.ReturnsWide ⟨position, m⟩ ((m.argument 4 ++ m.argument 8) <<<
      (if (m.argument 12).toNat < 64 then (m.argument 12).toNat
        else 32 + (m.argument 12).toNat % 32)) := by
  have hparts : code.drop position = ([.label shiftLeftLabel] ++ loadShiftArguments) ++
      (cmp ecx 64 :: jb "LSHL_START" :: or ecx 0x20 :: .label "LSHL_START" ::
        (shiftBody "LSHL_EXIT" "LSHL_HI_SHIFT" (Code.saving shiftLeftLow) shiftLeftHigh ++
          rest)) := hcode
  have hcmp := Code.drop_add_length hparts
  have hjb := Code.drop_succ hcmp
  have hor := Code.drop_succ hjb
  have hlabel := Code.drop_succ hor
  have hbody (m' : Machine) : code.ReturnsWide ⟨position + 7, m'⟩
      (m'.wide <<< ((m'.register 1).toNat % 64)) :=
    .of_runs (Code.runs_entry hlabel rfl) (.refl m')
      (shiftBody_returns (Code.drop_succ hlabel) hexit hhigh
        (fun m hpos hlt => saving_shiftLeftLow_shifts hpos hlt)
        (fun m hle hlt => (shiftLeftHigh_shiftsKeeping hle hlt).shifts) m')
  obtain ⟨m₁, hload, hkeeps, hwide, hcount⟩ := execute?_arguments shiftLeftLabel m
  obtain ⟨m₂, hcompare, hkeeps₂, hwide₂, hcount₂, hcarry⟩ :=
    execute?_compare (m₁.read?_literal 64)
  refine .of_runs ((Code.runs_block hparts hload).trans (Code.runs_entry hcmp hcompare))
    (hkeeps.trans hkeeps₂) ?_
  rw [← hwide, ← hcount, ← hwide₂, ← hcount₂]
  -- A count below 64 jumps over the `or`, which takes any other for one between 32 and 63.
  by_cases hlt : (m₂.register 1).toNat < 64
  case pos =>
    have hgo : (jb "LSHL_START").jump? m₂ = some ("LSHL_START", true) := by simp [hcarry, hlt]
    have hshift := hbody m₂
    rw [Nat.mod_eq_of_lt hlt] at hshift
    rw [if_pos hlt]
    exact .of_runs (Code.runs_jump hjb hgo hstart) (.refl m₂) hshift
  case neg =>
    have hstay : (jb "LSHL_START").jump? m₂ = some ("LSHL_START", false) := by simp [hcarry, hlt]
    obtain ⟨m₃, hcap, hkeeps₃, hwide₃, hcount₃⟩ := execute?_cap m₂
    rw [if_neg hlt, ← hwide₃, ← hcount₃]
    exact .of_runs ((Code.runs_fallthrough hjb hstay).trans (Code.runs_entry hor hcap)) hkeeps₃
      (hbody m₃)

end Routines

end Multiboot

open Multiboot

/-- **The shift routines shift numbers of 64 bits.** Call a routine with the upper dword of a
number, its lower dword and a count on the stack above the return address, whatever else registers,
flags and memory hold. It returns with the shifted number in `edx:eax`, with `ebx`, `esp`, `ebp`,
`esi` and `edi` as they were, and with memory changed in the eight bytes below `esp` at most. Shifts
to the right go by the count modulo 64, and fill with zeros or with the sign. The shift to the left
goes by the count if that is less than 64. With a greater count it moves the lower dword into the
upper one, by the count modulo 32, and leaves zero in the lower one. -/
theorem shift_routines (m : Machine) :
    let x : BitVec 64 := m.argument 4 ++ m.argument 8
    let count := (m.argument 12).toNat
    (∃ m', shiftRoutines.Returns shiftLeftLabel m m' ∧ m.Keeps m' ∧
      (count < 64 → m'.wide = x <<< count) ∧
      (64 ≤ count → m'.wide = m.argument 8 <<< (count % 32) ++ 0#32)) ∧
    (∃ m', shiftRoutines.Returns shiftRightLabel m m' ∧ m.Keeps m' ∧
      m'.wide = x >>> (count % 64)) ∧
    ∃ m', shiftRoutines.Returns shiftArithmeticLabel m m' ∧ m.Keeps m' ∧
      m'.wide = x.sshiftRight (count % 64) := by
  intro x count
  refine ⟨?left, ?right, ?arithmetic⟩
  case left =>
    -- Each routine stands at a fixed position, and the labels it jumps to are its own.
    have hcode : shiftRoutines.drop 0 = shiftLeft ++ (shiftRight ++ shiftArithmetic) := rfl
    obtain ⟨stop, m', hret, hruns, hkeeps, hwide⟩ :=
      shiftLeft_returns hcode (by decide) (by decide) (by decide) m
    refine ⟨m', ⟨0, stop, by decide, hret, hruns⟩, hkeeps, fun hlt => ?_, fun hle => ?_⟩
    · rw [hwide, if_pos hlt]
    -- The count was taken for one between 32 and 63, which leaves nothing in the lower dword.
    · rw [hwide, if_neg hle.not_gt, shiftLeft_append_of_le _ _ (Nat.le_add_right ..),
        Nat.add_sub_cancel_left]
  case right =>
    have hcode : shiftRoutines.drop 34 = shiftRight ++ shiftArithmetic := rfl
    obtain ⟨stop, m', hret, hruns, hkeeps, hwide⟩ := shiftRightWith_returns (.inl rfl)
      (fun m hle hlt => shiftRightHigh_shiftsKeeping hle hlt) hcode (by decide) (by decide) m
    exact ⟨m', ⟨34, stop, by decide, hret, hruns⟩, hkeeps, hwide⟩
  case arithmetic =>
    have hcode : shiftRoutines.drop 64 = shiftArithmetic ++ [] := rfl
    obtain ⟨stop, m', hret, hruns, hkeeps, hwide⟩ := shiftRightWith_returns (.inr rfl)
      (fun m hle hlt => shiftArithmeticHigh_shiftsKeeping hle hlt) hcode (by decide) (by decide) m
    exact ⟨m', ⟨64, stop, by decide, hret, hruns⟩, hkeeps, hwide⟩

end BootImage
