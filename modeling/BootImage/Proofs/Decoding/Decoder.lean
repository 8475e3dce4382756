import BootImage.Encoding.Form
import BootImage.Proofs.Decoding.OpcodeMap

/-!
# The decoder

Code of a fixed mode is read front to back: the overrides, the opcode, the addressing bytes if the
opcode has any, and the fields that the row of the opcode map asks for. All but the fields make up
the frame of an instruction; the frame decides the row.

* `Frame`, `Frame.read` — an instruction up to its fields.
* `decode` — the decoder.
* `Frame.Denotes` — what a frame and the bytes behind it stand for.
* `Encoding.decode_bytes` — an encoding is decoded as its frame and its field say.
-/

namespace BootImage

/-! ## Overrides and opcodes -/

namespace Reader

variable {α : Type}

/-- A byte that stands for something, if one comes next. -/
def optional (meaning : UInt8 → Option α) : Reader (Option α)
  | [] => some (none, [])
  | b :: rest =>
    match meaning b with
    | some a => some (some a, rest)
    | none => some (none, b :: rest)

/-- Whether the given byte comes next, which is then taken. -/
def marker (byte : UInt8) : Reader Bool
  | [] => some (false, [])
  | b :: rest => if b = byte then some (true, rest) else some (false, b :: rest)

end Reader

/-- The segment that an override byte selects. -/
def Segment.ofOverride? (b : UInt8) : Option Segment :=
  match b.toNat with
  | 0x26 => some .es
  | 0x2E => some .cs
  | 0x36 => some .ss
  | 0x3E => some .ds
  | 0x64 => some .fs
  | 0x65 => some .gs
  | _ => none

@[simp] theorem Segment.ofOverride?_overrideByte (s : Segment) :
    ofOverride? s.overrideByte = some s := by
  cases s <;> rfl

/-- The other of the two sizes if there is an override. -/
def Mode.overridden (mode : Mode) (override : Bool) : Mode :=
  match mode, override with
  | .bits16, false | .bits32, true => .bits16
  | .bits16, true | .bits32, false => .bits32

/-- What the bytes in front of an opcode say. -/
structure Overrides where
  segment : Option Segment
  addressSize : Mode
  /-- The width of full-size operands. -/
  width : Width

/-- Reads the bytes in front of an opcode. -/
def Overrides.read (mode : Mode) : Reader Overrides := do
  let segment ← Reader.optional Segment.ofOverride?
  let address ← Reader.marker 0x67
  let operand ← Reader.marker 0x66
  pure {
    segment
    addressSize := mode.overridden address
    width := (mode.overridden operand).width }

/-- Reads an opcode of one or two bytes. -/
def Opcode.read : Reader Opcode := do
  let b ← Reader.byte
  if b = 0x0F then (fun b => .secondary b.toNat) <$> Reader.byte
  else pure (.primary b.toNat)

/-! ## Frames -/

/-- An instruction up to its fields. -/
structure Frame where
  /-- The width of full-size operands. -/
  width : Width
  opcode : Opcode
  /-- The number in `reg`. -/
  reg : Nat := 0
  /-- The `rm` operand, if there are addressing bytes. -/
  rm : Option Rm := none

/-- The row of an opcode next to the number `reg`, where `rm` tells whether the `rm` operand, if
there is one, is a register. -/
def Opcode.row (o : Opcode) (reg : Nat) (rm : Option Bool) (w : Width) : Option Row :=
  if o.hasModRM = rm.isSome then
    match o with
    | primary b => OpcodeMap.primary b reg (rm.getD false) w
    | secondary b => OpcodeMap.secondary b reg w
  else none

/-- The `rm` operand of addressing bytes. -/
def Addressing.rm (segment : Option Segment) (size : Mode) (a : Addressing) : Rm :=
  if a.modrm.mod = 3 then .register (Register.number a.modrm.rm)
  else .memory (a.location segment size)

/-- Reads the addressing bytes behind an opcode, if it has any. -/
def Opcode.readAddressing (o : Opcode) (size : Mode) : Reader (Option Addressing) :=
  if o.hasModRM then some <$> Addressing.read size else pure none

namespace Frame

/-- The frame that the parts of an instruction make up. -/
def of (overrides : Overrides) (opcode : Opcode) (a : Option Addressing) : Frame where
  width := overrides.width
  opcode := opcode
  reg := a.elim 0 (·.modrm.reg)
  rm := a.map (·.rm overrides.segment overrides.addressSize)

/-- Reads an instruction up to its fields. -/
def read (mode : Mode) : Reader Frame := do
  let overrides ← Overrides.read mode
  let opcode ← Opcode.read
  of overrides opcode <$> opcode.readAddressing overrides.addressSize

/-- The row of the opcode map. -/
def row (f : Frame) : Option Row :=
  f.opcode.row f.reg (f.rm.map Rm.isRegister) f.width

/-- The operand that a slot stands for, with the bytes of the field. -/
def operand (f : Frame) (field : List UInt8) : Slot → Option DecodedOperand
  | .rm w => f.rm.map (·.operand w)
  | .address => f.rm.bind Rm.address?
  | .reg w => some (.register (.ofCode w f.reg))
  | .segment => (OpcodeMap.segmentOf? f.reg).map fun s => .register (.segment s)
  | .fixed r => some (.register r)
  | .constant v => some (.number v)
  | .immediate _ w => some (.number (LittleEndian.toInt field % 2 ^ w.bits))
  | .distance _ => some (.distance (LittleEndian.toInt field))

/-- What a row says about the frame and the bytes of its field. -/
def decodedAs (f : Frame) (field : List UInt8) (row : Row) : Option Decoded := do
  let operands ← row.slots.mapM (f.operand field)
  pure { operation := row.operation, width := row.width, operands }

end Frame

/-- Reads an instruction in code of the given mode. -/
def decode (mode : Mode) : Reader Decoded := do
  let f ← Frame.read mode
  let row ← f.row
  let field ← Reader.field row.fieldLength
  f.decodedAs field row

/-! ## Reading back -/

/-- The width of full-size operands where an encoding has the given width. -/
def Mode.fullWidth (mode : Mode) : Option Width → Width
  | none | some .byte => mode.width
  | some w => w

theorem Mode.overridden_address (mode : Mode) (size : Option Mode) :
    mode.overridden (size.any (· != mode)) = size.getD mode := by
  rcases size with _ | _ | _ <;> cases mode <;> rfl

theorem Mode.overridden_operand (mode : Mode) (w : Option Width) :
    (mode.overridden (w.any (·.needsOverride mode))).width = mode.fullWidth w := by
  rcases w with _ | _ | _ | _ <;> cases mode <;> rfl

/-- The byte is not one of those in front of an opcode. -/
structure NotOverride (b : UInt8) : Prop where
  segment : Segment.ofOverride? b = none
  address : b ≠ 0x67
  operand : b ≠ 0x66

theorem ofNat_ne_ofNat {a b : Nat} (ha : a < 256) (hb : b < 256) (h : a ≠ b) :
    UInt8.ofNat a ≠ UInt8.ofNat b := by
  intro heq
  have hnat := congrArg UInt8.toNat heq
  rw [UInt8.toNat_ofNat', UInt8.toNat_ofNat', Nat.mod_eq_of_lt ha, Nat.mod_eq_of_lt hb] at hnat
  exact h hnat

namespace OpcodeMap

variable {b reg : Nat} {isRegister : Bool} {w : Width} {row : Row}

theorem control_eq_some {r column : Nat} (h : control r column reg w = some row) : r < 32 := by
  unfold control at h
  split at h <;> first | omega | cases h

theorem lt_of_primary (h : primary b reg isRegister w = some row) : b < 256 := by
  unfold primary at h
  dsimp only at h
  split at h
  · omega
  · split at h
    · omega
    · split at h
      · omega
      · have := control_eq_some h
        omega

theorem notOverride_of_primary (h : primary b reg isRegister w = some row) :
    NotOverride (UInt8.ofNat b) := by
  have hlt := lt_of_primary h
  refine ⟨?_, ?_, ?_⟩
  · unfold Segment.ofOverride?
    rw [UInt8.toNat_ofNat', Nat.mod_eq_of_lt hlt]
    split <;> first | rfl | cases h
  · refine ofNat_ne_ofNat hlt (by decide) ?_
    rintro rfl
    cases h
  · refine ofNat_ne_ofNat hlt (by decide) ?_
    rintro rfl
    cases h

theorem ne_escape_of_primary (h : primary b reg isRegister w = some row) :
    UInt8.ofNat b ≠ 0x0F := by
  refine ofNat_ne_ofNat (lt_of_primary h) (by decide) ?_
  rintro rfl
  cases h

theorem lt_of_secondary (h : secondary b reg w = some row) : b < 256 := by
  unfold secondary at h
  dsimp only at h
  split at h <;> first | omega | cases h

end OpcodeMap

namespace Opcode

variable {o : Opcode} {b reg : Nat} {rm : Option Bool} {w : Width} {row : Row}

theorem hasModRM_of_row (h : o.row reg rm w = some row) : o.hasModRM = rm.isSome := by
  unfold Opcode.row at h
  split at h
  case isTrue hmodrm => exact hmodrm
  case isFalse => cases h

theorem primary_of_row (h : (primary b).row reg rm w = some row) :
    OpcodeMap.primary b reg (rm.getD false) w = some row := by
  have hmodrm := hasModRM_of_row h
  unfold Opcode.row at h
  rwa [if_pos hmodrm] at h

theorem secondary_of_row (h : (secondary b).row reg rm w = some row) :
    OpcodeMap.secondary b reg w = some row := by
  have hmodrm := hasModRM_of_row h
  unfold Opcode.row at h
  rwa [if_pos hmodrm] at h

/-- The first byte of an opcode of the map is not taken for an override. -/
theorem notOverride_of_row (h : o.row reg rm w = some row) :
    ∃ b tail, o.bytes = b :: tail ∧ NotOverride b := by
  cases o with
  | primary b => exact ⟨_, [], rfl, OpcodeMap.notOverride_of_primary (primary_of_row h)⟩
  | secondary b => exact ⟨0x0F, _, rfl, ⟨rfl, by decide, by decide⟩⟩

theorem read_of_row (h : o.row reg rm w = some row) : Opcode.read.Takes o.bytes o := by
  intro rest
  cases o with
  | primary b =>
    have hescape := OpcodeMap.ne_escape_of_primary (primary_of_row h)
    have hnat := Nat.mod_eq_of_lt (OpcodeMap.lt_of_primary (primary_of_row h))
    simp [Opcode.read, Opcode.bytes, Reader.byte, hescape, hnat]
  | secondary b =>
    have hnat := Nat.mod_eq_of_lt (OpcodeMap.lt_of_secondary (secondary_of_row h))
    simp [Opcode.read, Opcode.bytes, Reader.byte, hnat]

end Opcode

namespace Encoding

variable {e : Encoding} {mode : Mode}

/-- What the bytes in front of the opcode of an encoding say. -/
def overridesIn (e : Encoding) (mode : Mode) : Overrides where
  segment := e.segment
  addressSize := e.addressSize.getD mode
  width := mode.fullWidth e.width

theorem read_overrides (e : Encoding) (mode : Mode) {b : UInt8} (hb : NotOverride b)
    (rest : List UInt8) :
    Overrides.read mode (e.overrides mode ++ b :: rest) =
      some (e.overridesIn mode, b :: rest) := by
  obtain ⟨hsegment, haddress, hoperand⟩ := hb
  rw [overridesIn, ← Mode.overridden_address, ← Mode.overridden_operand]
  unfold overrides addressOverride operandOverride
  generalize e.addressSize.any (· != mode) = address
  generalize e.width.any (·.needsOverride mode) = operand
  -- Without a segment override, a size override is what is looked at for one.
  have hsegment66 : Segment.ofOverride? 0x66 = none := rfl
  have hsegment67 : Segment.ofOverride? 0x67 = none := rfl
  cases e.segment <;> cases address <;> cases operand <;>
    simp [Overrides.read, Reader.optional, Reader.marker, hsegment, haddress, hoperand, hsegment66,
      hsegment67]

/-- The bytes up to the fields. -/
def front (e : Encoding) (mode : Mode) : List UInt8 :=
  e.overrides mode ++ (e.opcode.bytes ++ e.addressing.elim [] Addressing.bytes)

/-- The frame of an encoding. -/
def frame (e : Encoding) (mode : Mode) : Frame :=
  .of (e.overridesIn mode) e.opcode e.addressing

/-- The addressing bytes are of the shape that their address has. -/
def Fits (e : Encoding) (mode : Mode) : Prop :=
  ∀ a, e.addressing = some a → a.Fits (e.addressSize.getD mode)

/-- The frame of an encoding is read back, if the opcode map has a row for it. -/
theorem read_front {row : Row} (hfits : e.Fits mode) (hrow : (e.frame mode).row = some row) :
    (Frame.read mode).Takes (e.front mode) (e.frame mode) := by
  have hmodrm : e.opcode.hasModRM = e.addressing.isSome := by
    simpa [frame, Frame.of] using Opcode.hasModRM_of_row hrow
  -- That an override is absent shows at the byte behind it, so the opcode has to follow.
  refine .bind_of_followed (a := e.overridesIn mode) (fun rest => ?_) ?_
  · obtain ⟨b, tail, hbytes, hb⟩ := Opcode.notOverride_of_row hrow
    rw [show e.opcode.bytes = b :: tail from hbytes]
    simpa using read_overrides e mode hb (tail ++ e.addressing.elim [] Addressing.bytes ++ rest)
  · refine .bind (Opcode.read_of_row hrow) (.map ?_ _)
    rw [Opcode.readAddressing, hmodrm]
    cases haddressing : e.addressing with
    | none => exact .pure none
    | some a => exact (Addressing.read_bytes (hfits a haddressing)).map some

end Encoding

/-- The frame, with the bytes of its field behind it, stands for `d`. -/
def Frame.Denotes (f : Frame) (field : List UInt8) (d : Decoded) : Prop :=
  ∃ row, f.row = some row ∧ field.length = row.fieldLength ∧ f.decodedAs field row = some d

/-- An encoding is decoded as its frame and its field say. -/
theorem Encoding.decode_bytes {e : Encoding} {mode : Mode} {d : Decoded} (hfits : e.Fits mode)
    (hd : (e.frame mode).Denotes e.immediate d) : (decode mode).Takes (e.bytes mode) d := by
  obtain ⟨row, hrow, hlength, hdecoded⟩ := hd
  have hfield := Reader.takes_field e.immediate
  rw [hlength] at hfield
  have hparts : (decode mode).Takes (e.front mode ++ ([] ++ (e.immediate ++ []))) d := by
    refine (read_front hfits hrow).bind ?_
    exact (Reader.Takes.lift hrow).bind (hfield.bind (.lift hdecoded))
  simpa [bytes, front, body] using hparts

end BootImage
