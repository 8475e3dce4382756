import BootImage.Entry.Build
import BootImage.Proofs.Decoding.EffectiveAddress

/-!
# A machine that executes streams

Dword instructions of 32-bit code act on eight registers, two flags and a memory of bytes, as the
processor manuals have it: shift counts are taken modulo 32, logic operations clear the carry flag,
a shift by zero leaves the flags alone, and the stack grows down from `esp`. Segments are flat. A
jump goes to the first entry that defines its label. What is not modelled, such as other widths and
the signed conditions, has no step.

* `Machine.load_store`, `Machine.load_store_of_disjoint` — memory holds what was stored last.
* `Machine.read?_base` — the address of an operand with one base register.
* `Machine.load_push_push` — the stack holds what was pushed.
* `Instruction.execute?`, `Code.execute?` — one instruction, and a block of them without jumps.
* `Code.step?`, `Code.Runs` — one step of a stream, and any number of them.
* `Code.runs_block`, `Code.runs_jump`, `Code.runs_fallthrough` — runs are put together from blocks
  and jumps.
* `Code.Returns.unique` — what a routine returns with is determined by what it was called with.
-/

namespace BootImage

/-- The flags that comparisons of unsigned numbers set. -/
structure Flags where
  carry : Bool
  zero : Bool

-- The proof in the numerals of registers has one name, so that all definitions share it.
local instance neZero_registers : NeZero 8 := Nat.instNeZeroSucc

/-- What a program works on. -/
structure Machine where
  /-- The dword registers, by number. -/
  register : Fin 8 → BitVec 32
  flags : Flags
  memory : BitVec 32 → BitVec 8

namespace Machine

/-! ## Registers and memory -/

def setRegister (m : Machine) (n : Fin 8) (v : BitVec 32) : Machine where
  register := Function.update m.register n v
  flags := m.flags
  memory := m.memory

def setFlags (m : Machine) (flags : Flags) : Machine where
  register := m.register
  flags := flags
  memory := m.memory

/-- The dword at an address, with its lowest byte first. -/
def load (m : Machine) (a : BitVec 32) : BitVec 32 :=
  m.memory (a + 3#32) ++ m.memory (a + 2#32) ++ m.memory (a + 1#32) ++ m.memory a

/-- Puts a dword to an address. -/
def store (m : Machine) (a v : BitVec 32) : Machine where
  register := m.register
  flags := m.flags
  memory b := if (b - a).toNat < 4 then v.extractLsb' (8 * (b - a).toNat) 8 else m.memory b

variable (m : Machine) (n : Fin 8) (v w a b : BitVec 32) (flags : Flags)

@[simp] theorem register_setRegister_self : (m.setRegister n v).register n = v :=
  Function.update_self ..

variable {n} in
@[simp] theorem register_setRegister_of_ne {k : Fin 8} (h : k ≠ n) :
    (m.setRegister n v).register k = m.register k :=
  Function.update_of_ne h ..

@[simp] theorem flags_setRegister : (m.setRegister n v).flags = m.flags := rfl

@[simp] theorem memory_setRegister : (m.setRegister n v).memory = m.memory := rfl

@[simp] theorem register_setFlags : (m.setFlags flags).register = m.register := rfl

@[simp] theorem flags_setFlags : (m.setFlags flags).flags = flags := rfl

@[simp] theorem memory_setFlags : (m.setFlags flags).memory = m.memory := rfl

@[simp] theorem register_store : (m.store a v).register = m.register := rfl

variable {m} in
/-- What is loaded depends on the memory only. -/
theorem load_congr {m' : Machine} (h : m'.memory = m.memory) : m'.load a = m.load a := by
  rw [load, load, h]

@[simp] theorem load_setRegister : (m.setRegister n v).load a = m.load a := rfl

variable {a b} in
theorem memory_store_of_le (h : 4 ≤ (b - a).toNat) : (m.store a v).memory b = m.memory b :=
  if_neg h.not_gt

@[simp] theorem load_store : (m.store a v).load a = v := by
  have hbyte (i : BitVec 32) : a + i - a = i := by rw [BitVec.add_comm, BitVec.add_sub_cancel]
  have hjoin (i : Nat) {k length : Nat} (h : k = i + 8) :
      v.extractLsb' k length ++ v.extractLsb' i 8 = v.extractLsb' i (length + 8) :=
    BitVec.extractLsb'_append_extractLsb'_eq_extractLsb' h
  simp only [load, store, hbyte, BitVec.sub_self]
  show v.extractLsb' 24 8 ++ v.extractLsb' 16 8 ++ v.extractLsb' 8 8 ++ v.extractLsb' 0 8 = v
  rw [hjoin 16 rfl, hjoin 8 rfl, hjoin 0 rfl]
  exact BitVec.extractLsb'_eq_self

variable {a b} in
/-- A dword is still there if the one that was stored does not overlap it. -/
theorem load_store_of_disjoint (h : 4 ≤ (b - a).toNat) (h' : 4 ≤ (a - b).toNat) :
    (m.store a v).load b = m.load b := by
  have hbyte : ∀ i : BitVec 32, i.toNat < 4 → (m.store a v).memory (b + i) = m.memory (b + i) := by
    intro i hi
    apply memory_store_of_le
    bv_omega
  rw [load, hbyte 3#32 (by decide), hbyte 2#32 (by decide), hbyte 1#32 (by decide),
    memory_store_of_le m v h]
  rfl

/-! ## The stack -/

/-- Puts a value on the stack, which ends at `esp`. -/
def push (m : Machine) (v : BitVec 32) : Machine :=
  (m.setRegister 4 (m.register 4 - 4#32)).store (m.register 4 - 4#32) v

@[simp] theorem register_push_esp : (m.push v).register 4 = m.register 4 - 4#32 :=
  register_setRegister_self m 4 _

@[simp] theorem register_push_of_ne {k : Fin 8} (h : k ≠ 4) :
    (m.push v).register k = m.register k :=
  register_setRegister_of_ne m _ h

/-- A value that was pushed is on the stack. -/
theorem load_push : (m.push v).load (m.register 4 - 4#32) = v :=
  load_store ..

/-- What was pushed before is above it. -/
theorem load_push_push : ((m.push v).push w).load (m.register 4 - 4#32) = v := by
  rw [push, load_store_of_disjoint]
  · exact m.load_push v
  · rw [register_push_esp]
    bv_omega
  · rw [register_push_esp]
    bv_omega

variable {a} in
/-- Two pushed values take the eight bytes below `esp`. -/
theorem memory_push_push (h : 8 ≤ (m.register 4 - 1#32 - a).toNat) :
    ((m.push v).push w).memory a = m.memory a := by
  rw [push, memory_store_of_le]
  · show (m.push v).memory a = m.memory a
    rw [push, memory_store_of_le]
    · rfl
    · bv_omega
  · rw [register_push_esp]
    bv_omega

/-! ## Operands -/

/-- What the registers of an address hold. -/
def contents : Register → Int
  | .general .dword n => (m.register n).toNat
  | _ => 0

/-- The address of a dword operand without a label. -/
def address? (op : Memory) : Option (BitVec 32) :=
  match op.size, op.segment, op.labelRef?, op.addressSize .bits32 with
  | .dword, none, none, .ok .bits32 =>
    some (.ofInt 32 (op.effectiveAddress .bits32 none m.contents))
  | _, _, _, _ => none

/-- The value of an operand. -/
def read? : Operand → Option (BitVec 32)
  | .register (.general .dword n) => some (m.register n)
  | .immediate v => some (.ofInt 32 v)
  | .memory op => (m.address? op).map m.load
  | _ => none

/-- Puts a value where an operand says. -/
def write? (dst : Operand) (v : BitVec 32) : Option Machine :=
  match dst with
  | .register (.general .dword n) => some (m.setRegister n v)
  | .memory op => (m.address? op).map (m.store · v)
  | _ => none

/-- How far a shift goes. -/
def shiftCount? : Operand → Option Nat
  | .register .cl => some ((m.register 1).toNat % 2 ^ 8 % 32)
  | .immediate v => some ((BitVec.ofInt 8 v).toNat % 32)
  | _ => none

@[simp] theorem read?_register :
    m.read? (.register (.general .dword n)) = some (m.register n) := rfl

@[simp] theorem read?_literal (i : Nat) :
    m.read? (no_index (OfNat.ofNat i)) = some (.ofNat 32 i) :=
  congrArg some (BitVec.ofInt_natCast 32 i)

@[simp] theorem shiftCount?_literal (i : Nat) :
    m.shiftCount? (no_index (OfNat.ofNat i)) = some (i % 2 ^ 8 % 32) :=
  congrArg (fun v : BitVec 8 => some (v.toNat % 32)) (BitVec.ofInt_natCast 8 i)

@[simp] theorem write?_register :
    m.write? (.register (.general .dword n)) v = some (m.setRegister n v) := rfl

/-- A dword behind a base register. -/
@[simp] theorem read?_base (displacement : Int) :
    m.read? (.memory ((Memory.ofBase .dword (.general .dword n)).withDisplacement displacement)) =
      some (m.load (m.register n + .ofInt 32 displacement)) := by
  show some (m.load (.ofInt 32
    (((m.register n).toNat + 0 * (1 : Nat) + displacement) % 2 ^ 32))) = _
  congr 2
  apply BitVec.eq_of_toNat_eq
  simp only [BitVec.toNat_ofInt, BitVec.toNat_add]
  omega

end Machine

/-! ## Operations -/

namespace ArithmeticOp

/-- The result of an operation, where `carry` is the carry flag. -/
def result (carry : Bool) (a b : BitVec 32) : ArithmeticOp → BitVec 32
  | add => a + b
  | adc => a + b + (if carry then 1 else 0)
  | sub | cmp => a - b
  | sbb => a - b - (if carry then 1 else 0)
  | or => a ||| b
  | and => a &&& b
  | xor => a ^^^ b

/-- Whether an operation carries or borrows. -/
def carries (carry : Bool) (a b : BitVec 32) : ArithmeticOp → Bool
  | add => decide (2 ^ 32 ≤ a.toNat + b.toNat)
  | adc => decide (2 ^ 32 ≤ a.toNat + b.toNat + carry.toNat)
  | sub | cmp => decide (a.toNat < b.toNat)
  | sbb => decide (a.toNat < b.toNat + carry.toNat)
  | or | and | xor => false

/-- The flags behind an operation. -/
def flags (op : ArithmeticOp) (carry : Bool) (a b : BitVec 32) : Flags where
  carry := op.carries carry a b
  zero := op.result carry a b == 0

end ArithmeticOp

namespace ShiftOp

/-- The result of a shift. -/
def result {w : Nat} (a : BitVec w) (count : Nat) : ShiftOp → BitVec w
  | rol => a.rotateLeft count
  | ror => a.rotateRight count
  | shl => a <<< count
  | shr => a >>> count
  | sar => a.sshiftRight count

section Results

variable {w : Nat} (a : BitVec w) (count : Nat)

@[simp] theorem result_shl : shl.result a count = a <<< count := rfl

@[simp] theorem result_shr : shr.result a count = a >>> count := rfl

@[simp] theorem result_sar : sar.result a count = a.sshiftRight count := rfl

@[simp] theorem result_zero (op : ShiftOp) : op.result a 0 = a := by
  cases op <;> simp [result, BitVec.rotateLeft, BitVec.rotateLeftAux, BitVec.rotateRight,
    BitVec.rotateRightAux, BitVec.ushiftRight_eq_zero]

end Results

/-- The flags behind a shift. The carry flag is the bit that was moved last; rotations do not change
the other one. -/
def flags (op : ShiftOp) (before : Flags) (a : BitVec 32) (count : Nat) : Flags :=
  if count = 0 then before
  else
    let v := op.result a count
    match op with
    | rol => { before with carry := v.getLsbD 0 }
    | ror => { before with carry := v.msb }
    | shl => { carry := a.getLsbD (32 - count), zero := v == 0 }
    | shr | sar => { carry := a.getLsbD (count - 1), zero := v == 0 }

end ShiftOp

/-- Whether a condition on unsigned numbers holds. -/
def Flags.holds? (flags : Flags) : Condition → Option Bool
  | .below => some flags.carry
  | .aboveOrEqual => some !flags.carry
  | .equal => some flags.zero
  | .notEqual => some !flags.zero
  | .belowOrEqual => some (flags.carry || flags.zero)
  | .above => some !(flags.carry || flags.zero)
  | _ => none

/-! ## Instructions -/

namespace Machine

variable (m : Machine)

/-- Sets the flags by an operation, and writes its result unless only the flags count. -/
def arithmetic? (op : ArithmeticOp) (dst src : Operand) : Option Machine := do
  let a ← m.read? dst
  let b ← m.read? src
  let m' := m.setFlags (op.flags m.flags.carry a b)
  if op = .cmp then pure m' else m'.write? dst (op.result m.flags.carry a b)

/-- Sets the flags by the bits that two operands have in common. -/
def test? (dst src : Operand) : Option Machine := do
  let a ← m.read? dst
  let b ← m.read? src
  pure (m.setFlags (ArithmeticOp.and.flags m.flags.carry a b))

/-- Shifts an operand and sets the flags. -/
def shift? (op : ShiftOp) (dst count : Operand) : Option Machine := do
  let a ← m.read? dst
  let n ← m.shiftCount? count
  (m.setFlags (op.flags m.flags a n)).write? dst (op.result a n)

/-- Takes a value from the stack. -/
def pop? (dst : Operand) : Option Machine :=
  (m.setRegister 4 (m.register 4 + 4#32)).write? dst (m.load (m.register 4))

variable (n : Fin 8) (src : Operand)

/-- An operation on a register writes the register, unless only the flags count. -/
@[simp] theorem arithmetic?_register (op : ArithmeticOp) (h : op ≠ .cmp) :
    m.arithmetic? op (.register (.general .dword n)) src = (m.read? src).map fun v =>
      (m.setFlags (op.flags m.flags.carry (m.register n) v)).setRegister n
        (op.result m.flags.carry (m.register n) v) := by
  simp [arithmetic?, h, Option.map_eq_bind]

@[simp] theorem arithmetic?_cmp :
    m.arithmetic? .cmp (.register (.general .dword n)) src = (m.read? src).map fun v =>
      m.setFlags (ArithmeticOp.cmp.flags m.flags.carry (m.register n) v) := by
  simp [arithmetic?, Option.map_eq_bind]

/-- A shift of a register writes the register. -/
@[simp] theorem shift?_register (op : ShiftOp) (count : Operand) :
    m.shift? op (.register (.general .dword n)) count = (m.shiftCount? count).map fun i =>
      (m.setFlags (op.flags m.flags (m.register n) i)).setRegister n
        (op.result (m.register n) i) := by
  simp [shift?, Option.map_eq_bind]

/-- A shift by `cl` goes by the register modulo 32. -/
@[simp] theorem shiftCount?_cl :
    m.shiftCount? (.register .cl) = some ((m.register 1).toNat % 32) := by
  simp [shiftCount?, Nat.mod_mod_of_dvd]

end Machine

/-- What an instruction does that goes on with the next one. -/
def Instruction.execute? (i : Instruction) (m : Machine) : Option Machine :=
  match i.mnemonic, i.operands with
  | .mov, [dst, src] => (m.read? src).bind (m.write? dst)
  | .arithmetic op, [dst, src] => m.arithmetic? op dst src
  | .test, [a, b] => m.test? a b
  | .shift op, [dst, count] => m.shift? op dst count
  | .push, [src] => (m.read? src).map m.push
  | .pop, [dst] => m.pop? dst
  | _, _ => none

/-- What an entry does; a label does nothing. -/
def Entry.execute? (e : Entry) (m : Machine) : Option Machine :=
  match e with
  | .label _ => some m
  | .instruction i => i.execute? m
  | _ => none

section Instructions

variable (m : Machine) (dst src : Operand)

@[simp] theorem Entry.execute?_label (name : String) : (label name).execute? m = some m := rfl

@[simp] theorem Entry.execute?_mov :
    (mov dst src).execute? m = (m.read? src).bind (m.write? dst) := rfl

@[simp] theorem Entry.execute?_and : (and dst src).execute? m = m.arithmetic? .and dst src := rfl

@[simp] theorem Entry.execute?_or : (or dst src).execute? m = m.arithmetic? .or dst src := rfl

@[simp] theorem Entry.execute?_xor : (xor dst src).execute? m = m.arithmetic? .xor dst src := rfl

@[simp] theorem Entry.execute?_sub : (sub dst src).execute? m = m.arithmetic? .sub dst src := rfl

@[simp] theorem Entry.execute?_cmp : (cmp dst src).execute? m = m.arithmetic? .cmp dst src := rfl

@[simp] theorem Entry.execute?_test : (test dst src).execute? m = m.test? dst src := rfl

@[simp] theorem Entry.execute?_shift (op : ShiftOp) :
    (machine (.shift op) [dst, src]).execute? m = m.shift? op dst src := rfl

@[simp] theorem Entry.execute?_shl : (shl dst src).execute? m = m.shift? .shl dst src := rfl

@[simp] theorem Entry.execute?_shr : (shr dst src).execute? m = m.shift? .shr dst src := rfl

@[simp] theorem Entry.execute?_sar : (sar dst src).execute? m = m.shift? .sar dst src := rfl

@[simp] theorem Entry.execute?_push : (push src).execute? m = (m.read? src).map m.push := rfl

@[simp] theorem Entry.execute?_pop : (pop dst).execute? m = m.pop? dst := rfl

end Instructions

/-- What a block of entries does, none of which is a jump. -/
def Code.execute? : Code → Machine → Option Machine
  | [], m => some m
  | e :: code, m => (e.execute? m).bind (execute? code)

/-- The label that a jump goes to if it is taken, and whether it is. -/
def Entry.jump? (e : Entry) (m : Machine) : Option (String × Bool) :=
  match e with
  | .instruction ⟨.jmp, [.label target]⟩ => some (target, true)
  | .instruction ⟨.jcc condition, [.label target]⟩ =>
    (m.flags.holds? condition).map fun taken => (target, taken)
  | _ => none

section Jumps

variable (target : String) (m : Machine)

@[simp] theorem Entry.jump?_jmp : (jmp (.label target)).jump? m = some (target, true) := rfl

@[simp] theorem Entry.jump?_jz : (jz target).jump? m = some (target, m.flags.zero) := rfl

@[simp] theorem Entry.jump?_jb : (jb target).jump? m = some (target, m.flags.carry) := rfl

@[simp] theorem Entry.jump?_jae : (jae target).jump? m = some (target, !m.flags.carry) := rfl

end Jumps

/-- An entry that does something else is no jump. -/
theorem Entry.jump?_of_execute? {e : Entry} {m m' : Machine} (h : e.execute? m = some m') :
    e.jump? m = none := by
  cases e with
  | instruction i =>
    obtain ⟨mnemonic, operands⟩ := i
    cases mnemonic <;> first | rfl | cases h
  | _ => rfl

/-! ## Runs -/

/-- A machine that executes the entry at a position next. -/
structure State where
  position : Nat
  machine : Machine

namespace Code

/-- One step of a stream. -/
def step? (code : Code) (s : State) : Option State := do
  let e ← code[s.position]?
  match e.jump? s.machine with
  | some (target, true) =>
    let position ← code.findIdx? (·.defines target)
    pure { s with position }
  | some (_, false) => pure { s with position := s.position + 1 }
  | none =>
    let machine ← e.execute? s.machine
    pure { position := s.position + 1, machine }

/-- Any number of steps of a stream. -/
def Runs (code : Code) : State → State → Prop :=
  Relation.ReflTransGen fun s s' => code.step? s = some s'

/-- From its label on, a routine of the stream runs up to a `ret`. -/
def Returns (code : Code) (label : String) (m m' : Machine) : Prop :=
  ∃ start stop, code.findIdx? (·.defines label) = some start ∧ code[stop]? = some Entry.ret ∧
    code.Runs ⟨start, m⟩ ⟨stop, m'⟩

theorem execute?_append (front back : Code) (m : Machine) :
    (front ++ back).execute? m = (front.execute? m).bind back.execute? := by
  induction front generalizing m with
  | nil => rfl
  | cons e front ih =>
    show (e.execute? m).bind (execute? (front ++ back)) = _
    rw [funext ih, execute?, Option.bind_assoc]

variable {code block rest : Code} {position : Nat} {m m' : Machine}

theorem drop_add_length (hcode : code.drop position = block ++ rest) :
    code.drop (position + block.length) = rest := by
  rw [← List.drop_drop, hcode, List.drop_left]

theorem drop_succ {e : Entry} (hcode : code.drop position = e :: rest) :
    code.drop (position + 1) = rest := by
  rw [← List.drop_drop, hcode]
  rfl

theorem getElem?_of_drop {e : Entry} (hcode : code.drop position = e :: rest) :
    code[position]? = some e := by
  rw [← List.head?_drop, hcode]
  rfl

/-- An entry that is no jump goes on with the next one. -/
theorem runs_entry {e : Entry} (hcode : code.drop position = e :: rest)
    (h : e.execute? m = some m') : code.Runs ⟨position, m⟩ ⟨position + 1, m'⟩ :=
  .single (by simp [step?, getElem?_of_drop hcode, Entry.jump?_of_execute? h, h])

/-- A block is run from its first entry to behind its last. -/
theorem runs_block (hcode : code.drop position = block ++ rest) (h : block.execute? m = some m') :
    code.Runs ⟨position, m⟩ ⟨position + block.length, m'⟩ := by
  induction block generalizing position m with
  | nil =>
    cases h
    exact .refl
  | cons e block ih =>
    obtain ⟨m₁, he, hblock⟩ := Option.bind_eq_some_iff.1 h
    have hruns := ih (drop_succ hcode) hblock
    rw [Nat.add_assoc, Nat.add_comm 1] at hruns
    exact (runs_entry hcode he).trans hruns

/-- A jump that is taken goes to its label. -/
theorem runs_jump {e : Entry} {target : String} {goal : Nat}
    (hcode : code.drop position = e :: rest) (h : e.jump? m = some (target, true))
    (htarget : code.findIdx? (·.defines target) = some goal) :
    code.Runs ⟨position, m⟩ ⟨goal, m⟩ :=
  .single (by simp [step?, getElem?_of_drop hcode, h, htarget])

/-- A jump that is not taken goes on with the next entry. -/
theorem runs_fallthrough {e : Entry} {target : String} (hcode : code.drop position = e :: rest)
    (h : e.jump? m = some (target, false)) : code.Runs ⟨position, m⟩ ⟨position + 1, m⟩ :=
  .single (by simp [step?, getElem?_of_drop hcode, h])

/-- What a routine returns with is determined by what it was called with, because there is at most
one step from every state and none from a `ret`. -/
theorem Returns.unique {label : String} {m₁ m₂ : Machine} (h₁ : code.Returns label m m₁)
    (h₂ : code.Returns label m m₂) : m₁ = m₂ := by
  obtain ⟨start, stop₁, hstart, hret₁, hruns₁⟩ := h₁
  obtain ⟨start', stop₂, hstart', hret₂, hruns₂⟩ := h₂
  rw [hstart] at hstart'
  cases hstart'
  -- A run goes no further than a `ret`.
  have hfinal : ∀ {stop : Nat} {m : Machine} {s : State}, code[stop]? = some Entry.ret →
      code.Runs ⟨stop, m⟩ s → ⟨stop, m⟩ = s := by
    intro stop m s hret hruns
    rcases hruns.cases_head with heq | ⟨s', hstep, -⟩
    · exact heq
    · have hnone : code.step? ⟨stop, m⟩ = none := by
        show code[stop]?.bind _ = none
        rw [hret]
        rfl
      rw [hnone] at hstep
      cases hstep
  -- Steps are deterministic, so one of the two runs continues the other.
  rcases Relation.ReflTransGen.total_of_right_unique
    (fun s s₁ s₂ hs₁ hs₂ => Option.some.inj (hs₁.symm.trans hs₂)) hruns₁ hruns₂ with h | h
  · cases hfinal hret₁ h
    rfl
  · cases hfinal hret₂ h
    rfl

end Code

end BootImage
