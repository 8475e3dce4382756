import BootImage.Proofs.Decoding.Decoder
import BootImage.Proofs.Decoding.Meaning

/-!
# Decoding the shared forms

Every encoder puts an opcode, with or without addressing bytes, in front of at most one field. The
frames of these forms are known, so that for each encoder only the row of its opcode remains to be
looked up.

* `Decodes` — the bytes of an encoding stand for a given instruction.
* `Framed.decodes`, `Framed.withImmediate` — a frame is decoded alone, or with a field behind it.
* `framed_opcode`, `framed_onRegister`, `framed_onMemory` — the frames of the shared forms.
-/

namespace BootImage

/-- The encoding, if there is one, has the given frame and no field. -/
def Framed (mode : Mode) (f : Frame) (x : Except AssemblyError Encoding) : Prop :=
  ∀ e, x = .ok e → e.Fits mode ∧ e.frame mode = f ∧ e.immediate = []

/-- Full-size operands are read at the width of the encoding. -/
theorem Mode.fullWidth_of_ne {w : Width} (mode : Mode) (h : w ≠ .byte) :
    mode.fullWidth w = w := by
  cases w
  · exact absurd rfl h
  · rfl
  · rfl

/-- The bytes of the encoding, if there is one, are decoded as `d`. -/
def Decodes (mode : Mode) (d : Decoded) (x : Except AssemblyError Encoding) : Prop :=
  ∀ e, x = .ok e → (decode mode).Takes (e.bytes mode) d

variable {mode : Mode} {f : Frame} {d : Decoded} {x y : Except AssemblyError Encoding} {α : Type}

namespace Decodes

theorem error {err : AssemblyError} : Decodes mode d (.error err) :=
  nofun

theorem bind {step : Except AssemblyError α} {next : α → Except AssemblyError Encoding}
    (h : ∀ a, step = .ok a → Decodes mode d (next a)) : Decodes mode d (step >>= next) := by
  intro e he
  obtain ⟨a, ha, hnext⟩ := bind_eq_ok.1 he
  exact h a ha e hnext

theorem ite {p : Prop} [Decidable p] (h : p → Decodes mode d x) (h' : ¬p → Decodes mode d y) :
    Decodes mode d (if p then x else y) := by
  by_cases hp : p
  · simpa only [if_pos hp] using h hp
  · simpa only [if_neg hp] using h' hp

end Decodes

namespace Framed

theorem full {w : Width} {opcode : Opcode} {reg : Nat} {rm : Option Rm}
    (h : Framed mode ⟨mode.fullWidth w, opcode, reg, rm⟩ x) (hw : w ≠ .byte) :
    Framed mode ⟨w, opcode, reg, rm⟩ x := by
  rwa [mode.fullWidth_of_ne hw] at h

theorem decodes (h : Framed mode f x) (hd : f.Denotes [] d) : Decodes mode d x := by
  intro e he
  obtain ⟨hfits, rfl, himmediate⟩ := h e he
  rw [← himmediate] at hd
  exact Encoding.decode_bytes hfits hd

theorem withImmediate {w : Width} {v : Int} (h : Framed mode f x)
    (hd : f.Denotes (LittleEndian.ofInt w.bytes v) d) :
    Decodes mode d (x >>= fun e => e.withImmediate w v) := by
  refine .bind fun e he => ?_
  obtain ⟨hfits, rfl, -⟩ := h e he
  intro e' he'
  obtain ⟨field, hfield, hok⟩ := bind_eq_ok.1 he'
  obtain ⟨-, rfl⟩ := Width.field_eq_ok.1 hfield
  cases hok
  exact Encoding.decode_bytes hfits hd

end Framed

/-! ## Operands -/

namespace Instruction

theorem general_of_generalWidth {i : Instruction} {r : Register} {w : Width}
    (h : i.generalWidth r = .ok w) : ∃ n, r = .general w n := by
  obtain ⟨hsegment, rfl⟩ := Encoding.generalWidth_eq_ok.1 h
  cases r with
  | general w n => exact ⟨n, rfl⟩
  | segment s => cases hsegment

/-- Without a register, the width of a memory operand is that of the instruction. -/
theorem uniformMeaning_memory {i : Instruction} {cx : Context} {m : Memory} {w : Width}
    {operands : List Operand} (operation : Mnemonic) (h : i.memoryWidth m = .ok w)
    (hoperands : operands.findSome? Operand.generalWidth? = none) :
    uniformMeaning operation (.memory m :: operands) cx =
      ⟨operation, w, (.memory m :: operands).map (·.decoded cx w)⟩ := by
  simp only [uniformMeaning, Operand.commonWidth_memory (Encoding.memoryWidth_eq_ok.1 h) hoperands]

end Instruction

/-- A number that may be written as a sign-extended byte fits one. -/
theorem Immediate.fitsByte_of_isShort {imm : Immediate} (h : imm.isShort = true) :
    FitsByte imm.value := by
  rw [isShort, Bool.and_eq_true] at h
  exact of_decide_eq_true h.2

/-! ## The shared forms -/

namespace Encoding

theorem framed_opcode (width : Option Width) (opcode : Opcode) :
    Framed mode { width := mode.fullWidth width, opcode } (.ok { width, opcode }) := by
  rintro e ⟨⟩
  exact ⟨nofun, rfl, rfl⟩

theorem framed_onRegister (width : Option Width) (opcode : Opcode) {reg : Nat} (hreg : reg < 8)
    (w : Width) (n : Fin 8) :
    Framed mode { width := mode.fullWidth width, opcode, reg, rm := some (.register n) }
      (.ok (onRegister width opcode reg (.general w n))) := by
  rintro e ⟨⟩
  refine ⟨?_, ?_, rfl⟩
  · rintro a ⟨⟩
    exact {
      modrm := ModRM.fits_mk (by decide) hreg n.isLt
      sib := by simp [Addressing.register, Addressing.hasSib]
      sib_fits := nofun
      displacement := by simp [Addressing.register, Addressing.displacementLength,
        Addressing.lacksBase, Addressing.modLength] }
  · simp [frame, Frame.of, overridesIn, onRegister, Addressing.rm, Addressing.register,
      Register.code]

theorem framed_onMemory (cx : Context) (width : Option Width) (opcode : Opcode) {reg : Nat}
    (hreg : reg < 8) (m : Memory) :
    Framed cx.mode {
        width := cx.mode.fullWidth width
        opcode
        reg
        rm := some (.memory (m.location cx.mode cx.symbol)) }
      (onMemory cx width opcode reg m) := by
  intro e he
  obtain ⟨segment, hsegment, he⟩ := bind_eq_ok.1 he
  obtain ⟨size, hsize, he⟩ := bind_eq_ok.1 he
  obtain ⟨a, ha, he⟩ := bind_eq_ok.1 he
  cases he
  obtain ⟨hfits, hmemory, rfl, hlocation⟩ := Memory.addressing_denotes ha hsegment hreg
  obtain ⟨rfl, -⟩ := Memory.addressSize_eq_ok hsize
  refine ⟨?_, ?_, rfl⟩
  · rintro a' ⟨⟩
    exact hfits
  · simp [frame, Frame.of, overridesIn, Addressing.rm, hmemory, hlocation]

/-- An opcode with two general-purpose registers of one width. -/
theorem onPair_eq_ok {i : Instruction} {opcode : Opcode} {rm reg : Register} {e : Encoding} :
    onPair i opcode rm reg = .ok e ↔ ∃ w a b, rm = .general w a ∧ reg = .general w b ∧
      e = onRegister w opcode b rm := by
  unfold onPair
  simp only [bind_eq_ok]
  constructor
  · rintro ⟨w, hw, w', hw', hok⟩
    obtain ⟨a, rfl⟩ := Instruction.general_of_generalWidth hw
    obtain ⟨b, rfl⟩ := Instruction.general_of_generalWidth hw'
    split at hok
    case isTrue hsame =>
      cases hok
      cases hsame
      exact ⟨w, a, b, rfl, rfl, rfl⟩
    case isFalse => cases hok
  · rintro ⟨w, a, b, rfl, rfl, rfl⟩
    exact ⟨w, rfl, w, rfl, if_pos rfl⟩

theorem decodes_onPair {i : Instruction} {opcode : Opcode} {rm reg : Register}
    (h : ∀ w (a b : Fin 8), rm = .general w a → reg = .general w b →
      Frame.Denotes ⟨mode.fullWidth w, opcode, b, some (.register a)⟩ [] d) :
    Decodes mode d (onPair i opcode rm reg) := by
  intro e he
  obtain ⟨w, a, b, rfl, rfl, rfl⟩ := onPair_eq_ok.1 he
  exact (framed_onRegister w opcode b.isLt w a).decodes (h w a b rfl rfl) _ rfl

end Encoding

end BootImage
