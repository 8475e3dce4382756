import BootImage.Encoding.Context
import BootImage.Encoding.Format

/-!
# Addressing bytes

How a memory operand is put into ModR/M, SIB and displacement. With 32-bit addresses any
register may be the base and any but `esp` the index; `esp` as base needs a SIB byte, and `ebp`
as base needs a displacement. With 16-bit addresses only eight register combinations exist. A
displacement takes as few bytes as it can, unless it is symbolic.
-/

namespace BootImage

/-- The form of a displacement behind a base register: the `mod` field and the displacement
bytes. Zero takes no bytes where `mayOmit` allows, a small number takes one, and all else takes
a field of the size of the address. -/
def displacementField (size : Width) (mayOmit : Bool) (disp : Immediate) :
    Except AssemblyError (Nat × List UInt8) :=
  if !disp.symbolic && disp.value == 0 && mayOmit then .ok (0, [])
  else if disp.isShort then .ok (1, LittleEndian.ofInt 1 disp.value)
  else do
    let field ← size.field disp.value
    pure (2, field)

/-- The `shift` field for a scale. -/
def scaleShift (scale : Nat) : Nat :=
  match scale with
  | 2 => 1
  | 4 => 2
  | 8 => 3
  | _ => 0

namespace Memory

/-- The displacement as a number, with the value of its label put in. -/
def displacementValue (m : Memory) (symbol : Option Int) : Immediate :=
  match m.displacement with
  | .literal v => { value := v }
  | .label _ _ => { value := symbol.getD 0, symbolic := true }

/-- The addressing bytes of a 32-bit address, next to the number `reg`. -/
def addressing32 (m : Memory) (disp : Immediate) (reg : Nat) :
    Except AssemblyError Addressing :=
  if m.index = some .esp then
    .error (.unsupported s!"'{m.text}' (esp cannot be an index)")
  else
    match m.base, m.index with
    | none, none => do
      let field ← Width.dword.field disp.value
      pure { modrm := { mod := 0, reg, rm := 5 }, displacement := field }
    | none, some index => do
      let field ← Width.dword.field disp.value
      pure {
        modrm := { mod := 0, reg, rm := 4 }
        sib := some { shift := scaleShift m.scale, index := index.code, base := 5 }
        displacement := field }
    | some base, index => do
      let (mod, field) ← displacementField .dword (base.code != 5) disp
      if index.isSome || base.code == 4 then
        pure {
          modrm := { mod, reg, rm := 4 }
          sib := some {
            shift := scaleShift m.scale, index := index.elim 4 Register.code, base := base.code }
          displacement := field }
      else
        pure { modrm := { mod, reg, rm := base.code }, displacement := field }

/-- The `rm` field for the registers of a 16-bit address: at most one of `bx` and `bp` and at
most one of `si` and `di`, in either order. -/
def registers16? (base index : Option Register) : Option Nat :=
  match base, index with
  | some .bx, some .si | some .si, some .bx => some 0
  | some .bx, some .di | some .di, some .bx => some 1
  | some .bp, some .si | some .si, some .bp => some 2
  | some .bp, some .di | some .di, some .bp => some 3
  | some .si, none | none, some .si => some 4
  | some .di, none | none, some .di => some 5
  | some .bp, none | none, some .bp => some 6
  | some .bx, none | none, some .bx => some 7
  | _, _ => none

/-- The addressing bytes of a 16-bit address, next to the number `reg`. -/
def addressing16 (m : Memory) (disp : Immediate) (reg : Nat) :
    Except AssemblyError Addressing :=
  if m.index.isSome ∧ m.scale ≠ 1 then
    .error (.unsupported s!"scaled index in 16-bit address '{m.text}'")
  else if m.base = none ∧ m.index = none then do
    let field ← Width.word.field disp.value
    pure { modrm := { mod := 0, reg, rm := 6 }, displacement := field }
  else
    match registers16? m.base m.index with
    | none => .error (.unsupported s!"register combination in 16-bit address '{m.text}'")
    | some rm => do
      let (mod, field) ← displacementField .word (rm != 6) disp
      pure { modrm := { mod, reg, rm }, displacement := field }

/-- The addressing bytes of the operand in code of the given mode, next to the number `reg`;
`symbol` is the value of a symbolic displacement. -/
def addressing (m : Memory) (mode : Mode) (symbol : Option Int) (reg : Nat) :
    Except AssemblyError Addressing :=
  if m.index.isSome ∧ m.scale ∉ [1, 2, 4, 8] then
    .error (.unsupported s!"scale {m.scale} in '{m.text}'")
  else do
    match ← m.addressSize mode with
    | .bits32 => m.addressing32 (m.displacementValue symbol) reg
    | .bits16 => m.addressing16 (m.displacementValue symbol) reg

/-- The segment that the operand overrides its default with. -/
def segmentOverride (m : Memory) : Except AssemblyError (Option Segment) :=
  match m.segment with
  | none => .ok none
  | some (.segment s) => .ok (some s)
  | some r => .error (.unsupported s!"'{r.name}' as a segment override")

end Memory

end BootImage
