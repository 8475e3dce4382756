import BootImage.Proofs.Decoding.Addressing
import BootImage.Proofs.LabelFields
import Mathlib.Tactic.IntervalCases

/-!
# Locations in memory

What a memory operand denotes does not depend on how it is written: the registers that are added
up, the scale of the index, the displacement modulo the size of the address, and the segment. The
tables that read a location off addressing bytes are those of the processor. With 16-bit addresses
a register pair is named as a whole, so there the base is `bx` or `bp` and the index `si` or `di`,
in whichever order the operand has them.

* `Addressing.location`, `Memory.location` — what addressing bytes and operands denote.
* `Memory.addressing_denotes` — the addressing bytes of an operand denote what the operand does.
-/

namespace BootImage

/-- Where a memory operand is. -/
structure Location where
  segment : Option Register
  /-- The size of the address. -/
  size : Mode
  base : Option Register
  index : Option Register
  /-- What the index is multiplied by, and one without an index. -/
  scale : Nat
  /-- The constant part of the address, modulo its size. -/
  displacement : Int
  deriving DecidableEq

namespace Register

/-- The number of a general-purpose register, from the three bits that hold it. -/
def number (code : Nat) : Fin 8 :=
  ⟨code % 8, Nat.mod_lt code (by decide)⟩

@[simp] theorem number_val (n : Fin 8) : number n.val = n :=
  Fin.ext (Nat.mod_eq_of_lt n.isLt)

/-- The general-purpose register with the given number. -/
def ofCode (w : Width) (code : Nat) : Register :=
  .general w (number code)

@[simp] theorem ofCode_val (w : Width) (n : Fin 8) : ofCode w n.val = .general w n := by
  rw [ofCode, number_val]

@[simp] theorem ofCode_zero (w : Width) : ofCode w 0 = .general w 0 := rfl

end Register

/-! ## Addressing bytes -/

namespace Addressing

/-- The base and the index that the `rm` field of a 16-bit address stands for. -/
def registers16 : Nat → Option Register × Option Register
  | 0 => (some .bx, some .si)
  | 1 => (some .bx, some .di)
  | 2 => (some .bp, some .si)
  | 3 => (some .bp, some .di)
  | 4 => (none, some .si)
  | 5 => (none, some .di)
  | 6 => (some .bp, none)
  | _ => (some .bx, none)

def base? (size : Mode) (a : Addressing) : Option Register :=
  if lacksBase size a.modrm a.sib then none
  else match size with
    | .bits16 => (registers16 a.modrm.rm).1
    | .bits32 => some (.ofCode .dword (a.sib.elim a.modrm.rm Sib.base))

/-- The index; number 4 in SIB stands for none. -/
def index? (size : Mode) (a : Addressing) : Option Register :=
  match size with
  | .bits16 => (registers16 a.modrm.rm).2
  | .bits32 => a.sib.bind fun s => if s.index = 4 then none else some (.ofCode .dword s.index)

def scale (size : Mode) (a : Addressing) : Nat :=
  match size with
  | .bits16 => 1
  | .bits32 => a.sib.elim 1 fun s => if s.index = 4 then 1 else 2 ^ s.shift

/-- The location that addressing bytes denote. -/
def location (segment : Option Segment) (size : Mode) (a : Addressing) : Location where
  segment := segment.map .segment
  size := size
  base := a.base? size
  index := a.index? size
  scale := a.scale size
  displacement := LittleEndian.toInt a.displacement % 2 ^ size.width.bits

end Addressing

/-! ## Memory operands -/

namespace Memory

/-- The size of the address: that of its registers, or that of the mode. -/
def locationSize (m : Memory) (mode : Mode) : Mode :=
  match m.base <|> m.index with
  | some r => if r.width = .word then .bits16 else .bits32
  | none => mode

/-- The register of the address that is one of the given ones. -/
def registerAmong (m : Memory) (registers : List Register) : Option Register :=
  (m.base.toList ++ m.index.toList).find? (· ∈ registers)

/-- The location that a memory operand denotes, where `symbol` is the value of its label. -/
def location (m : Memory) (mode : Mode) (symbol : Option Int) : Location :=
  let size := m.locationSize mode
  let displacement := (m.displacementValue symbol).value % 2 ^ size.width.bits
  match size with
  | .bits16 => {
      segment := m.segment, size, displacement
      base := m.registerAmong [.bx, .bp], index := m.registerAmong [.si, .di], scale := 1 }
  | .bits32 => {
      segment := m.segment, size, displacement
      base := m.base, index := m.index, scale := if m.index.isSome then m.scale else 1 }

end Memory

/-! ## Displacements -/

/-- A full field holds a number modulo its size. -/
theorem LittleEndian.toInt_ofInt_emod (w : Width) (v : Int) :
    toInt (ofInt w.bytes v) % 2 ^ w.bits = v % 2 ^ w.bits := by
  have hpow : (2 ^ w.bits : Int) = (256 ^ w.bytes : Nat) := by cases w <;> rfl
  rw [toInt, length_ofInt, toNat_ofInt, hpow, Int.bmod_emod, Int.emod_emod_of_dvd]
  exact dvd_rfl

/-- A sign-extended byte holds a number that fits it. -/
theorem LittleEndian.toInt_ofInt_byte {v : Int} (h : FitsByte v) : toInt (ofInt 1 v) = v :=
  Width.toInt_ofInt (w := .byte) (Width.reaches_byte.2 h)

theorem Width.field_eq_ok {w : Width} {v : Int} {bytes : List UInt8} :
    w.field v = .ok bytes ↔ w.Holds v ∧ bytes = LittleEndian.ofInt w.bytes v := by
  by_cases h : w.Holds v
  · simp [field_of_holds h, h, eq_comm]
  · simp [field_of_not_holds h, h]

/-- What the displacement behind a register may look like. -/
theorem displacementField_eq_ok {size : Width} {mayOmit : Bool} {disp : Immediate} {mod : Nat}
    {field : List UInt8} (h : displacementField size mayOmit disp = .ok (mod, field)) :
    (mod = 0 ∧ mayOmit = true ∧ disp.value = 0 ∧ field = []) ∨
      (mod = 1 ∧ FitsByte disp.value ∧ field = LittleEndian.ofInt 1 disp.value) ∨
      (mod = 2 ∧ field = LittleEndian.ofInt size.bytes disp.value) := by
  unfold displacementField at h
  split at h
  case isTrue homit =>
    simp only [Bool.and_eq_true, beq_iff_eq] at homit
    cases h
    exact .inl ⟨rfl, homit.2, homit.1.2, rfl⟩
  case isFalse =>
    split at h
    case isTrue hshort =>
      simp only [Immediate.isShort, Bool.and_eq_true, decide_eq_true_eq] at hshort
      cases h
      exact .inr (.inl ⟨rfl, hshort.2, rfl⟩)
    case isFalse =>
      obtain ⟨bytes, hbytes, hok⟩ := bind_eq_ok.1 h
      cases hok
      exact .inr (.inr ⟨rfl, (Width.field_eq_ok.1 hbytes).2⟩)

/-- Addressing bytes with a base register, of which `mayOmit` tells that `mod` may be zero. -/
theorem Addressing.fits_of_displacementField (size : Mode) (rm : Nat) (sib : Option Sib)
    {mayOmit : Bool} {disp : Immediate} {mod reg : Nat} {field : List UInt8}
    (h : displacementField size.width mayOmit disp = .ok (mod, field)) (hreg : reg < 8)
    (hrm : rm < 8) (hsib : ∀ mod < 3, sib.isSome = hasSib size { mod, reg, rm })
    (hfits : ∀ s, sib = some s → s.Fits)
    (hbase : mayOmit = true → ∀ mod, namesNoBase size { mod, reg, rm } sib = false) :
    Fits size { modrm := { mod, reg, rm }, sib, displacement := field } ∧ mod ≠ 3 ∧
      lacksBase size { mod, reg, rm } sib = false ∧
      LittleEndian.toInt field % 2 ^ size.width.bits = disp.value % 2 ^ size.width.bits := by
  obtain ⟨hlt, hlacks, hlength, hvalue⟩ : mod < 3 ∧
      lacksBase size { mod, reg, rm } sib = false ∧ field.length = modLength size mod ∧
      LittleEndian.toInt field % 2 ^ size.width.bits = disp.value % 2 ^ size.width.bits := by
    rcases displacementField_eq_ok h with ⟨rfl, hmay, hzero, rfl⟩ | ⟨rfl, hshort, rfl⟩ | ⟨rfl, rfl⟩
    · rw [hzero]
      exact ⟨by decide, hbase hmay 0, rfl, rfl⟩
    · rw [LittleEndian.toInt_ofInt_byte hshort]
      exact ⟨by decide, rfl, LittleEndian.length_ofInt _ _, rfl⟩
    · exact ⟨by decide, rfl, LittleEndian.length_ofInt _ _,
        LittleEndian.toInt_ofInt_emod size.width disp.value⟩
  refine ⟨⟨ModRM.fits_mk (by omega) hreg hrm, hsib mod hlt, hfits, ?_⟩, by omega, hlacks, hvalue⟩
  rw [displacementLength, hlacks]
  exact hlength

/-! ## Operands and their addressing bytes -/

/-- Addressing bytes for an address of the given size with the given parts. -/
structure Addressing.Denotes (a : Addressing) (size : Mode) (reg : Nat)
    (base index : Option Register) (scale : Nat) (displacement : Int) : Prop where
  fits : a.Fits size
  isMemory : a.modrm.mod ≠ 3
  reg_eq : a.modrm.reg = reg
  base_eq : a.base? size = base
  index_eq : a.index? size = index
  scale_eq : a.scale size = scale
  displacement_eq : LittleEndian.toInt a.displacement % 2 ^ size.width.bits = displacement

namespace Memory

theorem registerAddressSize_eq_ok {r : Register} {size : Mode} :
    registerAddressSize r = .ok size ↔ ∃ n, r = .general size.width n := by
  cases r with
  | general w n => cases w <;> cases size <;> simp [registerAddressSize, Mode.width]
  | segment s => simp [registerAddressSize]

theorem two_pow_scaleShift {scale : Nat} (h : scale ∈ [1, 2, 4, 8]) :
    2 ^ scaleShift scale = scale := by
  simp only [List.mem_cons, List.not_mem_nil, or_false] at h
  rcases h with rfl | rfl | rfl | rfl <;> rfl

theorem scaleShift_lt (scale : Nat) : scaleShift scale < 4 := by
  unfold scaleShift
  split <;> decide

variable {m : Memory} {disp : Immediate} {reg : Nat} {a : Addressing}

section Shapes

-- A 32-bit address has one of four shapes, with a lemma for each.

variable {scale mod : Nat} {b : Fin 8} {index : Option Register} {field : List UInt8}

theorem denotes_displacement32 (v : Int) (hreg : reg < 8) :
    Addressing.Denotes
      { modrm := { mod := 0, reg, rm := 5 }, displacement := LittleEndian.ofInt 4 v }
      .bits32 reg none none 1 (v % 2 ^ 32) where
  fits := ⟨ModRM.fits_mk (by decide) hreg (by decide), rfl, nofun, LittleEndian.length_ofInt _ _⟩
  isMemory := nofun
  reg_eq := rfl
  base_eq := rfl
  index_eq := rfl
  scale_eq := rfl
  displacement_eq := LittleEndian.toInt_ofInt_emod .dword _

theorem denotes_index32 {n : Fin 8} (v : Int) (hreg : reg < 8) (hn : n.val ≠ 4)
    (hscale : scale ∈ [1, 2, 4, 8]) :
    Addressing.Denotes
      { modrm := { mod := 0, reg, rm := 4 }
        sib := some { shift := scaleShift scale, index := n.val, base := 5 }
        displacement := LittleEndian.ofInt 4 v }
      .bits32 reg none (some (.general .dword n)) scale (v % 2 ^ 32) where
  fits := ⟨ModRM.fits_mk (by decide) hreg (by decide), rfl,
    by rintro s ⟨⟩; exact Sib.fits_mk (scaleShift_lt _) n.isLt (by decide),
    LittleEndian.length_ofInt _ _⟩
  isMemory := nofun
  reg_eq := rfl
  base_eq := rfl
  index_eq := by simp [Addressing.index?, hn]
  scale_eq := by simp [Addressing.scale, hn, two_pow_scaleShift hscale]
  displacement_eq := LittleEndian.toInt_ofInt_emod .dword _

/-- Where the displacement may be left out, the base is not the number that stands for none. -/
theorem namesNoBase_of_ne {rm : Nat} {sib : Option Sib} (hrm : sib.elim rm Sib.base = b.val)
    (hne : (b.val != 5) = true) (mod : Nat) :
    Addressing.namesNoBase .bits32 { mod, reg, rm } sib = false := by
  simpa [Addressing.namesNoBase, hrm] using hne

theorem denotes_sib32 (hreg : reg < 8)
    (hfield : displacementField .dword (b.val != 5) disp = .ok (mod, field))
    (hindex : ∀ r, index = some r → ∃ n : Fin 8, r = .general .dword n ∧ n.val ≠ 4)
    (hscale : index.isSome = true → scale ∈ [1, 2, 4, 8]) :
    Addressing.Denotes
      { modrm := { mod, reg, rm := 4 }
        sib := some { shift := scaleShift scale, index := index.elim 4 Register.code, base := b.val }
        displacement := field }
      .bits32 reg (some (.general .dword b)) index (if index.isSome then scale else 1)
      (disp.value % 2 ^ 32) := by
  -- Without an index the field holds 4, the number of `esp`, which is no index.
  have hcode : index.elim 4 Register.code < 8 := by
    cases index with
    | none => decide
    | some r => exact r.code_lt
  obtain ⟨hfits, hmemory, hlacks, hvalue⟩ := Addressing.fits_of_displacementField .bits32 4
    (some ⟨scaleShift scale, index.elim 4 Register.code, b.val⟩) hfield hreg (by decide)
    (fun mod hlt => by interval_cases mod <;> rfl)
    (by rintro s ⟨⟩; exact Sib.fits_mk (scaleShift_lt _) hcode b.isLt) (namesNoBase_of_ne rfl)
  refine {
    fits := hfits
    isMemory := hmemory
    reg_eq := rfl
    base_eq := ?base
    index_eq := ?index
    scale_eq := ?scale
    displacement_eq := hvalue }
  case base =>
    rw [Addressing.base?, hlacks]
    simp
  case index =>
    cases index with
    | none => rfl
    | some r =>
      obtain ⟨n, rfl, hn⟩ := hindex r rfl
      simp [Addressing.index?, Register.code, hn]
  case scale =>
    cases index with
    | none => rfl
    | some r =>
      obtain ⟨n, rfl, hn⟩ := hindex r rfl
      simp [Addressing.scale, Register.code, hn, two_pow_scaleShift (hscale rfl)]

theorem denotes_base32 (hreg : reg < 8) (hb : b.val ≠ 4)
    (hfield : displacementField .dword (b.val != 5) disp = .ok (mod, field)) :
    Addressing.Denotes { modrm := { mod, reg, rm := b.val }, displacement := field }
      .bits32 reg (some (.general .dword b)) none 1 (disp.value % 2 ^ 32) := by
  obtain ⟨hfits, hmemory, hlacks, hvalue⟩ := Addressing.fits_of_displacementField .bits32 b.val
    none hfield hreg b.isLt (fun mod hlt => by simp [Addressing.hasSib, hb]) nofun
    (namesNoBase_of_ne rfl)
  exact {
    fits := hfits
    isMemory := hmemory
    reg_eq := rfl
    base_eq := by
      rw [Addressing.base?, hlacks]
      simp
    index_eq := rfl
    scale_eq := rfl
    displacement_eq := hvalue }

end Shapes

theorem addressing32_denotes (h : m.addressing32 disp reg = .ok a) (hreg : reg < 8)
    (hbase : ∀ r, m.base = some r → ∃ n, r = .general .dword n)
    (hindex : ∀ r, m.index = some r → ∃ n, r = .general .dword n)
    (hscale : m.index.isSome = true → m.scale ∈ [1, 2, 4, 8]) :
    a.Denotes .bits32 reg m.base m.index (if m.index.isSome then m.scale else 1)
      (disp.value % 2 ^ 32) := by
  unfold addressing32 at h
  split at h
  case isTrue => cases h
  rename_i hesp
  have hindexOf : ∀ r, m.index = some r → ∃ n : Fin 8, r = .general .dword n ∧ n.val ≠ 4 := by
    intro r hr
    obtain ⟨n, rfl⟩ := hindex r hr
    refine ⟨n, rfl, fun hn => hesp (hr.trans ?_)⟩
    exact congrArg (fun n => some (Register.general .dword n)) (Fin.ext hn)
  cases hb : m.base with
  | none =>
    cases hi : m.index with
    | none =>
      rw [hb, hi] at h
      obtain ⟨field, hfield, hok⟩ := bind_eq_ok.1 h
      obtain ⟨-, rfl⟩ := Width.field_eq_ok.1 hfield
      cases hok
      exact denotes_displacement32 disp.value hreg
    | some index =>
      obtain ⟨n, rfl, hn⟩ := hindexOf index hi
      rw [hb, hi] at h
      obtain ⟨field, hfield, hok⟩ := bind_eq_ok.1 h
      obtain ⟨-, rfl⟩ := Width.field_eq_ok.1 hfield
      cases hok
      exact denotes_index32 disp.value hreg hn (hscale (by rw [hi]; rfl))
  | some base =>
    obtain ⟨b, rfl⟩ := hbase base hb
    rw [hb] at h
    obtain ⟨⟨mod, field⟩, hfield, hok⟩ := bind_eq_ok.1 h
    dsimp only at hok
    split at hok
    case isTrue =>
      cases hok
      exact denotes_sib32 hreg hfield hindexOf hscale
    case isFalse hsib =>
      -- Without SIB there is no index, and the base is not `esp`.
      simp only [Register.code, Bool.or_eq_true, beq_iff_eq, not_or, Bool.not_eq_true,
        Option.isSome_eq_false_iff, Option.isNone_iff_eq_none] at hsib
      obtain ⟨hi, hb4⟩ := hsib
      cases hok
      rw [hi]
      exact denotes_base32 hreg hb4 hfield

theorem registers16?_eq_some {rm : Nat} (h : registers16? m.base m.index = some rm) :
    rm < 8 ∧ (Addressing.registers16 rm).1 = m.registerAmong [.bx, .bp] ∧
      (Addressing.registers16 rm).2 = m.registerAmong [.si, .di] := by
  unfold registerAmong
  revert h
  generalize m.base = base
  generalize m.index = index
  unfold registers16?
  intro h
  split at h <;> cases h <;> decide

theorem addressing16_denotes (h : m.addressing16 disp reg = .ok a) (hreg : reg < 8) :
    a.Denotes .bits16 reg (m.registerAmong [.bx, .bp]) (m.registerAmong [.si, .di]) 1
      (disp.value % 2 ^ 16) := by
  unfold addressing16 at h
  split at h
  case isTrue => cases h
  split at h
  -- Without registers the displacement is always a full field, behind the `rm` of `bp`.
  case isTrue hnone =>
    obtain ⟨field, hfield, hok⟩ := bind_eq_ok.1 h
    obtain ⟨-, rfl⟩ := Width.field_eq_ok.1 hfield
    cases hok
    exact {
      fits := ⟨ModRM.fits_mk (by decide) hreg (by decide), rfl, nofun,
        LittleEndian.length_ofInt _ _⟩
      isMemory := nofun
      reg_eq := rfl
      base_eq := by simp [registerAmong, hnone, Addressing.base?, Addressing.lacksBase,
        Addressing.namesNoBase]
      index_eq := by simp [registerAmong, hnone, Addressing.index?, Addressing.registers16]
      scale_eq := rfl
      displacement_eq := LittleEndian.toInt_ofInt_emod .word _ }
  case isFalse =>
    split at h
    case h_1 => cases h
    case h_2 rm hregisters =>
      obtain ⟨hrm, hbase, hindex⟩ := registers16?_eq_some hregisters
      obtain ⟨⟨mod, field⟩, hfield, hok⟩ := bind_eq_ok.1 h
      obtain ⟨hfits, hmemory, hlacks, hvalue⟩ := Addressing.fits_of_displacementField .bits16 rm
        none hfield hreg hrm (fun _ _ => rfl) (by simp)
        (fun hne mod => by simpa [Addressing.namesNoBase] using hne)
      cases hok
      exact {
        fits := hfits
        isMemory := hmemory
        reg_eq := rfl
        base_eq := by
          rw [Addressing.base?, hlacks]
          exact hbase
        index_eq := hindex
        scale_eq := rfl
        displacement_eq := hvalue }

theorem registerAddressSize_width {size : Mode} (n : Fin 8) :
    (if (Register.general size.width n).width = .word then Mode.bits16 else .bits32) = size := by
  cases size <;> rfl

theorem addressSize_eq_ok {mode size : Mode} (h : m.addressSize mode = .ok size) :
    m.locationSize mode = size ∧ (∀ r, m.base = some r → ∃ n, r = .general size.width n) ∧
      ∀ r, m.index = some r → ∃ n, r = .general size.width n := by
  unfold addressSize at h
  unfold locationSize
  -- By the registers there are: none takes the mode, two have to agree.
  cases hb : m.base with
  | none =>
    cases hi : m.index with
    | none =>
      rw [hb, hi] at h
      cases h
      exact ⟨rfl, nofun, nofun⟩
    | some index =>
      rw [hb, hi] at h
      obtain ⟨n, rfl⟩ := registerAddressSize_eq_ok.1 h
      exact ⟨registerAddressSize_width n, nofun, by rintro r ⟨⟩; exact ⟨n, rfl⟩⟩
  | some base =>
    cases hi : m.index with
    | none =>
      rw [hb, hi] at h
      obtain ⟨n, rfl⟩ := registerAddressSize_eq_ok.1 h
      exact ⟨registerAddressSize_width n, by rintro r ⟨⟩; exact ⟨n, rfl⟩, nofun⟩
    | some index =>
      rw [hb, hi] at h
      obtain ⟨size₁, hbase, hrest⟩ := bind_eq_ok.1 h
      obtain ⟨size₂, hindex, hrest⟩ := bind_eq_ok.1 hrest
      split at hrest
      case isFalse => cases hrest
      case isTrue hsame =>
        cases hrest
        cases hsame
        obtain ⟨b, rfl⟩ := registerAddressSize_eq_ok.1 hbase
        obtain ⟨n, rfl⟩ := registerAddressSize_eq_ok.1 hindex
        exact ⟨registerAddressSize_width b, by rintro r ⟨⟩; exact ⟨b, rfl⟩,
          by rintro r ⟨⟩; exact ⟨n, rfl⟩⟩

theorem segmentOverride_eq_ok {segment : Option Segment} (h : m.segmentOverride = .ok segment) :
    segment.map Register.segment = m.segment := by
  unfold segmentOverride at h
  split at h <;> cases h <;> simp_all

/-- Addressing bytes are those of an address of the size that the registers ask for. -/
theorem addressing_eq_ok {mode : Mode} {symbol : Option Int}
    (h : m.addressing mode symbol reg = .ok a) :
    (m.index.isSome = true → m.scale ∈ [1, 2, 4, 8]) ∧
      ∃ size, m.addressSize mode = .ok size ∧
        (match size with
          | .bits32 => m.addressing32 (m.displacementValue symbol) reg
          | .bits16 => m.addressing16 (m.displacementValue symbol) reg) = .ok a := by
  unfold addressing at h
  split at h
  case isTrue => cases h
  case isFalse hscale =>
    refine ⟨fun hindex => ?_, bind_eq_ok.1 h⟩
    by_contra hmem
    exact hscale ⟨hindex, hmem⟩

/-- **The addressing bytes of a memory operand denote its location.** -/
theorem addressing_denotes {mode : Mode} {symbol : Option Int} {segment : Option Segment}
    (h : m.addressing mode symbol reg = .ok a) (hsegment : m.segmentOverride = .ok segment)
    (hreg : reg < 8) :
    a.Fits (m.locationSize mode) ∧ a.modrm.mod ≠ 3 ∧ a.modrm.reg = reg ∧
      a.location segment (m.locationSize mode) = m.location mode symbol := by
  obtain ⟨hscale, size, hsize, h⟩ := addressing_eq_ok h
  obtain ⟨hlocation, hbase, hindex⟩ := addressSize_eq_ok hsize
  rw [Addressing.location, location, hlocation, segmentOverride_eq_ok hsegment]
  cases size with
  | bits32 =>
    have hdenotes := addressing32_denotes h hreg hbase hindex hscale
    refine ⟨hdenotes.fits, hdenotes.isMemory, hdenotes.reg_eq, ?_⟩
    rw [hdenotes.base_eq, hdenotes.index_eq, hdenotes.scale_eq, hdenotes.displacement_eq]
    rfl
  | bits16 =>
    have hdenotes := addressing16_denotes h hreg
    refine ⟨hdenotes.fits, hdenotes.isMemory, hdenotes.reg_eq, ?_⟩
    rw [hdenotes.base_eq, hdenotes.index_eq, hdenotes.scale_eq, hdenotes.displacement_eq]
    rfl

end Memory

end BootImage
