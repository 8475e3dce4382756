import BootImage.Proofs.Decoding.Location
import BootImage.Proofs.Writing.Writer

/-!
# Steps of writing

A step of writing takes a known number of bytes at most. In a buffer with that much room left it
either appends what it stands for or is refused, possibly with some of its bytes written. Steps
behind one another add up.

* `Writes` — a step writes given bytes to any buffer that has room for so many.
* `Writes.seq`, `Writes.check` — two steps, and a check in front of one.
* `Writes.address` — the addressing bytes of a memory operand, six at most.
* `Writes.bare`, `Writes.onRegister`, `Writes.onMemory` — the forms that instructions share.
-/

namespace BootImage

/-- In any buffer with `room` bytes left, the step appends the bytes of `x`, or is refused as `x`
is. -/
def Writes (room : Nat) (w : Writer Unit) (x : Except AssemblyError (List UInt8)) : Prop :=
  ∀ buffer : InstructionBuffer, buffer.bytes.length + room ≤ 16 →
    match x with
    | .ok bytes => bytes.length ≤ room ∧
      ∃ buffer', w buffer = .ok ((), buffer') ∧ buffer'.bytes = buffer.bytes ++ bytes
    | .error err => w buffer = .error (.refused err)

/-- The number in the last byte of an opcode. -/
def Opcode.number : Opcode → Nat
  | primary n => n
  | secondary n => n

/-- Without addressing bytes there is nothing to override but the operand size. -/
theorem Encoding.bytes_opcode (mode : Mode) (width : Option Width) (o : Opcode)
    (field : List UInt8) :
    ({ width, opcode := o, immediate := field } : Encoding).bytes mode =
      (if width.any (·.needsOverride mode) then [0x66] else []) ++ (o.bytes ++ field) := by
  simp [bytes, overrides, addressOverride, operandOverride, body]

theorem Width.bytes_le (w : Width) : w.bytes ≤ 4 := by
  cases w <;> decide

namespace Writes

variable {α : Type} {room room' : Nat} {w w' : Writer Unit}
  {x y x' : Except AssemblyError (List UInt8)}

/-! ## Steps -/

theorem congr (h : Writes room w x) (hxy : x = y) : Writes room w y :=
  hxy ▸ h

theorem mono (h : Writes room w x) (hle : room ≤ room') : Writes room' w x := by
  intro buffer hroom
  have hw := h buffer (by omega)
  cases x with
  | error err => exact hw
  | ok bytes => exact ⟨hw.1.trans hle, hw.2⟩

theorem refuse {err : AssemblyError} : Writes room (Writer.check (.error err)) (.error err) :=
  fun _ _ => rfl

/-- A step on the empty buffer. -/
theorem run_empty (h : Writes room w x) (hroom : room ≤ 16) :
    (∃ err, x = .error err ∧ w .empty = .error (.refused err)) ∨
    ∃ bytes buffer, x = .ok bytes ∧ w .empty = .ok ((), buffer) ∧ buffer.bytes = bytes ∧
      bytes.length ≤ room := by
  have hw := h .empty (by simpa [InstructionBuffer.empty] using hroom)
  cases x with
  | error err => exact .inl ⟨err, rfl, hw⟩
  | ok bytes =>
    obtain ⟨hlength, buffer, hrun, hbytes⟩ := hw
    exact .inr ⟨bytes, buffer, rfl, hrun, hbytes, hlength⟩

theorem nothing : Writes 0 (pure ()) (.ok []) :=
  fun buffer _ => ⟨le_rfl, buffer, rfl, (List.append_nil _).symm⟩

/-- A check comes before what is written with its value. -/
theorem check {step : Except AssemblyError α} {f : α → Writer Unit}
    {g : α → Except AssemblyError (List UInt8)} (h : ∀ a, step = .ok a → Writes room (f a) (g a)) :
    Writes room (Writer.check step >>= f) (step >>= g) := by
  cases step with
  | error err => exact fun _ _ => rfl
  | ok a => exact h a rfl

/-- One step behind another. The second may be refused with the bytes of the first written. -/
theorem seq (h : Writes room w x) (h' : Writes room' w' x') :
    Writes (room + room') (w >>= fun _ => w')
      (x >>= fun bytes => x' >>= fun bytes' => .ok (bytes ++ bytes')) := by
  intro buffer hroom
  have hw := h buffer (by omega)
  cases x with
  | error err =>
    show (w buffer >>= fun r => w' r.2) = .error (.refused err)
    rw [hw]
    rfl
  | ok bytes =>
    obtain ⟨hlength, buffer', hw, hbytes⟩ := hw
    have hrun : (w >>= fun _ => w') buffer = w' buffer' := by
      show (w buffer >>= fun r => w' r.2) = w' buffer'
      rw [hw]
      rfl
    have hw' := h' buffer' (by rw [hbytes, List.length_append]; omega)
    cases x' with
    | error err => exact hrun.trans hw'
    | ok bytes' =>
      obtain ⟨hlength', buffer'', hw', hbytes'⟩ := hw'
      refine ⟨?_, buffer'', hrun.trans hw', ?_⟩
      · rw [List.length_append]
        omega
      · rw [hbytes', hbytes, List.append_assoc]

theorem bytes (bs : List UInt8) : Writes bs.length (Writer.bytes bs) (.ok bs) := by
  intro buffer hroom
  refine ⟨le_rfl, ⟨buffer.bytes ++ bs, by simpa using hroom⟩, ?_, rfl⟩
  simp only [Writer.bytes, InstructionBuffer.append, dif_pos hroom]

theorem byte (b : UInt8) : Writes 1 (Writer.byte b) (.ok [b]) := by
  intro buffer hroom
  have hlt : buffer.bytes.length < 16 := hroom
  refine ⟨le_rfl, ⟨buffer.bytes ++ [b], by simpa using hroom⟩, ?_, rfl⟩
  simp only [Writer.byte, InstructionBuffer.push, dif_pos hlt]

/-- A number below 256 does not carry. -/
theorem narrow {n : Nat} (hn : n < 256) {f : UInt8 → Writer Unit}
    (h : Writes room (f (UInt8.ofNat n)) x) : Writes room (Writer.narrow n >>= f) x := by
  intro buffer hroom
  have hrun : (Writer.narrow n >>= f) buffer = f (UInt8.ofNat n) buffer := by
    show (Writer.narrow n buffer >>= fun r => f r.1 r.2) = _
    rw [Writer.narrow, if_pos hn]
    rfl
  rw [hrun]
  exact h buffer hroom

theorem number {n : Nat} (hn : n < 256) : Writes 1 (Writer.number n) (.ok [UInt8.ofNat n]) :=
  narrow hn (byte _)

theorem field (w : Width) (v : Int) : Writes w.bytes (Writer.field w v) (w.field v) := by
  refine (check fun bs hbs => ?_).congr (bind_pure (w.field v))
  have h := bytes bs
  rwa [Width.length_field hbs] at h

/-! ## Overrides and opcodes -/

theorem segmentOverride (s : Option Segment) :
    Writes 1 (Writer.segmentOverride s) (.ok (s.map Segment.overrideByte).toList) := by
  cases s with
  | none => exact nothing.mono (by decide)
  | some s => exact byte _

theorem addressOverride (mode size : Mode) :
    Writes 1 (Writer.addressOverride mode size) (.ok (if size ≠ mode then [0x67] else [])) := by
  unfold Writer.addressOverride
  split
  · exact byte _
  · exact nothing.mono (by decide)

theorem operandOverride (mode : Mode) (width : Option Width) :
    Writes 1 (Writer.operandOverride mode width)
      (.ok (if width.any (·.needsOverride mode) then [0x66] else [])) := by
  unfold Writer.operandOverride
  split
  · exact byte _
  · exact nothing.mono (by decide)

theorem opcode {o : Opcode} (ho : o.number < 256) :
    Writes o.length (Writer.opcode o) (.ok o.bytes) := by
  cases o with
  | primary n => exact number ho
  | secondary n => exact narrow ho (bytes [0x0F, UInt8.ofNat n])

/-! ## Addressing bytes -/

theorem modrm {mod reg rm : Nat} (hmod : mod < 4) (hreg : reg < 8) (hrm : rm < 8) :
    Writes 1 (Writer.modrm mod reg rm) (.ok [ModRM.byte { mod, reg, rm }]) :=
  number (by omega)

theorem sib {shift index base : Nat} (hshift : shift < 4) (hindex : index < 8) (hbase : base < 8) :
    Writes 1 (Writer.sib shift index base) (.ok [Sib.byte { shift, index, base }]) :=
  number (by omega)

/-- The displacement behind a base register, by its `mod` field. -/
theorem displacementField_cases (size : Width) (mayOmit : Bool) (disp : Immediate) :
    (Writer.displacementMod mayOmit disp = 0 ∧ displacementField size mayOmit disp = .ok (0, [])) ∨
    (Writer.displacementMod mayOmit disp = 1 ∧
      displacementField size mayOmit disp = .ok (1, LittleEndian.ofInt 1 disp.value)) ∨
    (Writer.displacementMod mayOmit disp = 2 ∧ displacementField size mayOmit disp = (do
      let field ← size.field disp.value
      pure (2, field))) := by
  unfold Writer.displacementMod displacementField
  split
  · exact .inl ⟨rfl, rfl⟩
  · split
    · exact .inr (.inl ⟨rfl, rfl⟩)
    · exact .inr (.inr ⟨rfl, rfl⟩)

/-- A displacement behind bytes that its `mod` field is part of. -/
theorem displaced {front : Nat → Writer Unit} {shown : Nat → List UInt8}
    (h : ∀ mod < 4, Writes room (front mod) (.ok (shown mod))) (size : Width) (mayOmit : Bool)
    (disp : Immediate) :
    Writes (room + 4)
      (do
        let mod := Writer.displacementMod mayOmit disp
        front mod
        Writer.displacement size mod disp)
      (displacementField size mayOmit disp >>= fun (mod, field) => .ok (shown mod ++ field)) := by
  have hsize := size.bytes_le
  rcases displacementField_cases size mayOmit disp with ⟨hmod, hfield⟩ | ⟨hmod, hfield⟩ |
    ⟨hmod, hfield⟩
  all_goals rw [hmod, hfield]
  · exact (h 0 (by decide)).seq (nothing.mono (by decide))
  · exact ((h 1 (by decide)).seq (bytes _)).mono (by simp)
  · refine (((h 2 (by decide)).seq (field size disp.value)).congr ?_).mono (by omega)
    cases size.field disp.value <;> rfl

variable {m : Memory} {disp : Immediate} {reg : Nat} (hreg : reg < 8)
include hreg

theorem based32 (scale : Nat) (base : Register) (index : Option Register) {mod : Nat}
    (hmod : mod < 4) :
    Writes 2 (Writer.based32 scale mod reg base index)
      (.ok (if index.isSome || base.code == 4 then
        [ModRM.byte { mod, reg, rm := 4 },
          Sib.byte {
            shift := scaleShift scale, index := index.elim 4 Register.code, base := base.code }]
        else [ModRM.byte { mod, reg, rm := base.code }])) := by
  have hindex : index.elim 4 Register.code < 8 := by
    cases index with
    | none => decide
    | some index => exact index.code_lt
  unfold Writer.based32
  split
  · exact (modrm hmod hreg (by decide)).seq (sib (Memory.scaleShift_lt _) hindex base.code_lt)
  · exact (modrm hmod hreg base.code_lt).mono (by decide)

theorem address32 : Writes 6 (Writer.address32 m disp reg)
    (m.addressing32 disp reg >>= fun a => .ok a.bytes) := by
  unfold Writer.address32 Memory.addressing32
  by_cases hesp : m.index = some .esp
  · rw [if_pos hesp, if_pos hesp]
    exact refuse
  · rw [if_neg hesp, if_neg hesp]
    cases m.base with
    | none =>
      cases m.index with
      | none =>
        refine (((modrm (by decide) hreg (by decide)).seq (field .dword disp.value)).congr ?_).mono
          (by decide)
        cases Width.dword.field disp.value <;> rfl
      | some index =>
        refine (((modrm (by decide) hreg (by decide)).seq
          ((sib (Memory.scaleShift_lt _) index.code_lt (by decide)).seq
            (field .dword disp.value))).congr ?_).mono (by decide)
        cases Width.dword.field disp.value <;> rfl
    | some base =>
      -- With a base the displacement may be left out or short, and the `mod` tells which.
      refine congr (displaced (fun mod hmod => based32 hreg m.scale base m.index hmod) .dword
        (base.code != 5) disp) ?_
      dsimp only
      cases displacementField .dword (base.code != 5) disp with
      | error err => rfl
      | ok r => cases m.index.isSome || base.code == 4 <;> rfl

theorem address16 : Writes 6 (Writer.address16 m disp reg)
    (m.addressing16 disp reg >>= fun a => .ok a.bytes) := by
  unfold Writer.address16 Memory.addressing16
  by_cases hscale : m.index.isSome ∧ m.scale ≠ 1
  · rw [if_pos hscale, if_pos hscale]
    exact refuse
  · rw [if_neg hscale, if_neg hscale]
    by_cases hnone : m.base = none ∧ m.index = none
    · rw [if_pos hnone, if_pos hnone]
      refine (((modrm (by decide) hreg (by decide)).seq (field .word disp.value)).congr ?_).mono
        (by decide)
      cases Width.word.field disp.value <;> rfl
    · rw [if_neg hnone, if_neg hnone]
      cases hregisters : Memory.registers16? m.base m.index with
      | none => exact refuse
      | some rm =>
        obtain ⟨hrm, -, -⟩ := Memory.registers16?_eq_some hregisters
        dsimp only
        refine ((displaced (fun mod hmod => modrm hmod hreg hrm) .word (rm != 6) disp).congr
          ?_).mono (by decide)
        cases displacementField .word (rm != 6) disp <;> rfl

theorem address (m : Memory) (cx : Context) :
    Writes 6 (Writer.address m cx reg)
      (m.addressing cx.mode cx.symbol reg >>= fun a => .ok a.bytes) := by
  unfold Writer.address Memory.addressing
  by_cases hscale : m.index.isSome ∧ m.scale ∉ [1, 2, 4, 8]
  · rw [if_pos hscale, if_pos hscale]
    exact refuse
  · rw [if_neg hscale, if_neg hscale, bind_assoc]
    refine check fun size _ => ?_
    cases size with
    | bits32 => exact address32 hreg
    | bits16 => exact address16 hreg

/-! ## Instructions without their field -/

omit hreg in
theorem bare (cx : Context) (width : Option Width) {o : Opcode} (ho : o.number < 256) :
    Writes (1 + o.length) (Writer.bare cx width o)
      (.ok ({ width, opcode := o : Encoding }.bytes cx.mode)) := by
  refine ((operandOverride cx.mode width).seq (opcode ho)).congr ?_
  rw [Encoding.bytes_opcode, List.append_nil]
  rfl

theorem onRegister (cx : Context) (width : Option Width) {o : Opcode} (ho : o.number < 256)
    (rm : Register) :
    Writes (1 + (o.length + 1)) (Writer.onRegister cx width o reg rm)
      (.ok ((Encoding.onRegister width o reg rm).bytes cx.mode)) := by
  refine ((operandOverride cx.mode width).seq
    ((opcode ho).seq (modrm (by decide) hreg rm.code_lt))).congr ?_
  unfold Encoding.onRegister
  simp [Encoding.bytes, Encoding.overrides, Encoding.addressOverride, Encoding.operandOverride,
    Encoding.body, Addressing.bytes, Addressing.register]

theorem onMemory (cx : Context) (width : Option Width) {o : Opcode} (ho : o.number < 256)
    (m : Memory) :
    Writes (9 + o.length) (Writer.onMemory cx width o reg m)
      (Encoding.onMemory cx width o reg m >>= fun e => .ok (e.bytes cx.mode)) := by
  -- Each override stands in front of the next check, so a refusal may leave some of them behind.
  refine (congr (check fun segment _ => (segmentOverride segment).seq
    (check fun size _ => (addressOverride cx.mode size).seq
      ((operandOverride cx.mode width).seq ((opcode ho).seq (address hreg m cx))))) ?_).mono
    (by omega)
  unfold Encoding.onMemory
  cases m.segmentOverride with
  | error err => rfl
  | ok segment =>
    cases m.addressSize cx.mode with
    | error err => rfl
    | ok size =>
      cases m.addressing cx.mode cx.symbol reg with
      | error err => rfl
      | ok a =>
        simp [Encoding.bytes, Encoding.overrides, Encoding.addressOverride,
          Encoding.operandOverride, Encoding.body]

end Writes

end BootImage
