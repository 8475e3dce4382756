import BootImage.Encoding.Address
import BootImage.Proofs.Branches

/-!
# Reading addressing bytes

An instruction is read from the front of a list of bytes, and leaves the bytes behind it. Of its
addressing bytes, ModR/M says whether a SIB byte follows, and the two together how long the
displacement is.

* `Reader.Takes` — a reader takes just these bytes, whatever follows them.
* `Addressing.Fits` — addressing bytes of the shape that an address of a given size has.
* `Addressing.read_bytes` — such bytes are read back.
-/

namespace BootImage

/-! ## Readers -/

/-- A reader takes bytes off the front of a list, unless it refuses them. -/
abbrev Reader := StateT (List UInt8) Option

namespace Reader

variable {α β : Type}

@[simp] theorem pure_apply (a : α) (bytes : List UInt8) :
    (pure a : Reader α) bytes = some (a, bytes) := rfl

@[simp] theorem bind_apply (reader : Reader α) (next : α → Reader β) (bytes : List UInt8) :
    (reader >>= next) bytes = (reader bytes).bind fun (a, rest) => next a rest := rfl

@[simp] theorem map_apply (f : α → β) (reader : Reader α) (bytes : List UInt8) :
    (f <$> reader) bytes = (reader bytes).map fun (a, rest) => (f a, rest) := by
  show (reader bytes).bind _ = _
  cases reader bytes <;> rfl

/-- The reader takes exactly `bytes`, whatever follows, and gives `a`. -/
def Takes (reader : Reader α) (bytes : List UInt8) (a : α) : Prop :=
  ∀ rest, reader (bytes ++ rest) = some (a, rest)

theorem Takes.pure (a : α) : Takes (Pure.pure a : Reader α) [] a :=
  fun _ => rfl

/-- A value that need not exist takes no bytes. -/
theorem Takes.lift {x : Option α} {a : α} (h : x = some a) :
    Takes (liftM x : Reader α) [] a := by
  rw [h]
  exact .pure a

/-- The first of two readers may look at the bytes that the second takes. -/
theorem Takes.bind_of_followed {reader : Reader α} {next : α → Reader β} {front back : List UInt8}
    {a : α} {b : β} (h : ∀ rest, reader (front ++ (back ++ rest)) = some (a, back ++ rest))
    (h' : (next a).Takes back b) : (reader >>= next).Takes (front ++ back) b := by
  intro rest
  rw [List.append_assoc, bind_apply, h]
  exact h' rest

theorem Takes.bind {reader : Reader α} {next : α → Reader β} {front back : List UInt8} {a : α}
    {b : β} (h : reader.Takes front a) (h' : (next a).Takes back b) :
    (reader >>= next).Takes (front ++ back) b :=
  .bind_of_followed (fun rest => h (back ++ rest)) h'

theorem Takes.map {reader : Reader α} {bytes : List UInt8} {a : α} (h : reader.Takes bytes a)
    (f : α → β) : (f <$> reader).Takes bytes (f a) := by
  intro rest
  rw [map_apply, h]
  rfl

/-- One byte. -/
def byte : Reader UInt8
  | [] => none
  | b :: rest => some (b, rest)

/-- A run of bytes of a known length. -/
def field (length : Nat) : Reader (List UInt8) := fun bytes =>
  if length ≤ bytes.length then some (bytes.take length, bytes.drop length) else none

theorem takes_byte (b : UInt8) : byte.Takes [b] b :=
  fun _ => rfl

theorem takes_field (bytes : List UInt8) : (field bytes.length).Takes bytes bytes := by
  intro rest
  simp [field]

end Reader

/-! ## Addressing bytes -/

namespace ModRM

/-- The three fields of a ModR/M byte. -/
def ofByte (b : UInt8) : ModRM where
  mod := b.toNat / 64
  reg := b.toNat / 8 % 8
  rm := b.toNat % 8

/-- The fields fit into a byte. -/
structure Fits (m : ModRM) : Prop where
  mod : m.mod < 4
  reg : m.reg < 8
  rm : m.rm < 8

theorem fits_mk {mod reg rm : Nat} (hmod : mod < 4) (hreg : reg < 8) (hrm : rm < 8) :
    Fits { mod, reg, rm } :=
  ⟨hmod, hreg, hrm⟩

theorem ofByte_byte {m : ModRM} (h : m.Fits) : ofByte m.byte = m := by
  obtain ⟨hmod, hreg, hrm⟩ := h
  obtain ⟨mod, reg, rm⟩ := m
  have hbyte : (byte ⟨mod, reg, rm⟩).toNat = mod * 64 + reg * 8 + rm := by
    rw [byte, UInt8.toNat_ofNat', Nat.mod_eq_of_lt (by dsimp at *; omega)]
  simp only [ofByte, hbyte, ModRM.mk.injEq]
  dsimp at *
  omega

end ModRM

namespace Sib

/-- The three fields of a SIB byte. -/
def ofByte (b : UInt8) : Sib where
  shift := b.toNat / 64
  index := b.toNat / 8 % 8
  base := b.toNat % 8

/-- The fields fit into a byte. -/
structure Fits (s : Sib) : Prop where
  shift : s.shift < 4
  index : s.index < 8
  base : s.base < 8

theorem fits_mk {shift index base : Nat} (hshift : shift < 4) (hindex : index < 8)
    (hbase : base < 8) : Fits { shift, index, base } :=
  ⟨hshift, hindex, hbase⟩

theorem ofByte_byte {s : Sib} (h : s.Fits) : ofByte s.byte = s := by
  obtain ⟨hshift, hindex, hbase⟩ := h
  obtain ⟨shift, index, base⟩ := s
  have hbyte : (byte ⟨shift, index, base⟩).toNat = shift * 64 + index * 8 + base := by
    rw [byte, UInt8.toNat_ofNat', Nat.mod_eq_of_lt (by dsimp at *; omega)]
  simp only [ofByte, hbyte, Sib.mk.injEq]
  dsimp at *
  omega

end Sib

namespace Addressing

/-- Whether a SIB byte follows ModR/M. -/
def hasSib (size : Mode) (m : ModRM) : Bool :=
  size == .bits32 && m.mod != 3 && m.rm == 4

/-- Whether the number of the base register is the one that stands for none where `mod` is zero. -/
def namesNoBase (size : Mode) (m : ModRM) (sib : Option Sib) : Bool :=
  match size with
  | .bits16 => m.rm == 6
  | .bits32 => sib.elim m.rm Sib.base == 5

/-- Whether the address has a displacement in place of a base register. -/
def lacksBase (size : Mode) (m : ModRM) (sib : Option Sib) : Bool :=
  m.mod == 0 && namesNoBase size m sib

/-- The number of displacement bytes behind a base register. -/
def modLength (size : Mode) (mod : Nat) : Nat :=
  match mod with
  | 1 => 1
  | 2 => size.width.bytes
  | _ => 0

/-- The number of displacement bytes. -/
def displacementLength (size : Mode) (m : ModRM) (sib : Option Sib) : Nat :=
  if lacksBase size m sib then size.width.bytes else modLength size m.mod

/-- Reads the SIB byte, if there is one. -/
def readSib (size : Mode) (m : ModRM) : Reader (Option Sib) :=
  if hasSib size m then (fun b => some (Sib.ofByte b)) <$> Reader.byte else pure none

/-- Reads addressing bytes, with addresses of the given size. -/
def read (size : Mode) : Reader Addressing := do
  let modrm ← ModRM.ofByte <$> Reader.byte
  let sib ← readSib size modrm
  let displacement ← Reader.field (displacementLength size modrm sib)
  pure { modrm, sib, displacement }

/-- The parts are those that an address of the given size has. -/
structure Fits (size : Mode) (a : Addressing) : Prop where
  modrm : a.modrm.Fits
  sib : a.sib.isSome = hasSib size a.modrm
  sib_fits : ∀ s, a.sib = some s → s.Fits
  displacement : a.displacement.length = displacementLength size a.modrm a.sib

theorem readSib_bytes {size : Mode} {m : ModRM} {sib : Option Sib}
    (hsib : sib.isSome = hasSib size m) (hfits : ∀ s, sib = some s → s.Fits) :
    (readSib size m).Takes (sib.map Sib.byte).toList sib := by
  cases sib with
  | none =>
    rw [readSib, ← hsib]
    exact .pure none
  | some s =>
    rw [readSib, ← hsib]
    have hbyte := (Reader.takes_byte s.byte).map fun b => some (Sib.ofByte b)
    rwa [Sib.ofByte_byte (hfits s rfl)] at hbyte

/-- Addressing bytes are read back. -/
theorem read_bytes {size : Mode} {a : Addressing} (h : a.Fits size) :
    (read size).Takes a.bytes a := by
  obtain ⟨hmodrm, hsib, hfits, hlength⟩ := h
  obtain ⟨modrm, sib, displacement⟩ := a
  dsimp only at hmodrm hsib hfits hlength
  have hfirst := (Reader.takes_byte modrm.byte).map ModRM.ofByte
  rw [ModRM.ofByte_byte hmodrm] at hfirst
  have hlast := Reader.takes_field displacement
  rw [hlength] at hlast
  have hparts : (read size).Takes
      ([modrm.byte] ++ ((sib.map Sib.byte).toList ++ (displacement ++ [])))
      { modrm, sib, displacement } := by
    refine hfirst.bind ?_
    refine (readSib_bytes hsib hfits).bind ?_
    exact hlast.bind (.pure _)
  simpa [bytes] using hparts

end Addressing

end BootImage
