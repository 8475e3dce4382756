import BootImage.Encoding.Instruction

/-!
# The output cursor

The cursor is the place where the next byte goes: an offset into the image, the origin that
turns offsets into addresses, and the mode of the code. Reading an entry moves the cursor over
the bytes that the entry takes, and sets the origin or the mode where the entry says so.
-/

namespace BootImage

/-- Where a label is. -/
structure LabelAddress where
  /-- Bytes from the start of the image. -/
  offset : Nat
  /-- The origin in effect at the label plus the offset. -/
  address : Nat
  deriving DecidableEq

/-- The state of reading a stream. -/
structure Cursor where
  offset : Nat := 0
  origin : UInt32 := 0
  mode : Mode := .initial
  deriving DecidableEq

namespace Cursor

/-- The address of the next byte. -/
def address (c : Cursor) : Nat :=
  c.origin.toNat + c.offset

/-- Where a label at the cursor is. -/
def place (c : Cursor) : LabelAddress where
  offset := c.offset
  address := c.address

/-- The bytes from `offset` up to the next multiple of `boundary`. -/
def padding (offset boundary : Nat) : Nat :=
  (boundary - offset % boundary) % boundary

/-- The number of bytes that an entry takes at the cursor, with a branch in the given form. -/
def size (c : Cursor) (e : Entry) (form : BranchForm) : Except AssemblyError Nat :=
  match e with
  | .offset target =>
    if target.toNat < c.offset then .error (.offsetBehindCursor target.toNat c.offset)
    else .ok (target.toNat - c.offset)
  | .align boundary =>
    if boundary = 0 then .error (.invalidAlignment 0)
    else .ok (padding c.offset boundary.toNat)
  | e => e.length c.mode form

/-- The cursor behind an entry that takes `size` bytes. -/
def past (c : Cursor) (e : Entry) (size : Nat) : Cursor where
  offset := c.offset + size
  origin := e.originAfter c.origin
  mode := e.modeAfter c.mode

/-- Reads one entry: the number of bytes it takes, and the cursor behind it. -/
def advance (c : Cursor) (e : Entry) (form : BranchForm) : Except AssemblyError (Nat × Cursor) := do
  let size ← c.size e form
  pure (size, c.past e size)

end Cursor

end BootImage
