import BootImage.Layout.Cursor

/-!
# Layout of a stream

For one choice of branch forms, the layout says for every entry where it stands, how many bytes
it takes, and which origin and mode are in effect there. It is one run of the cursor over the
stream, from the start of the image.
-/

namespace BootImage

/-- An entry in its place. -/
structure Place where
  entry : Entry
  form : BranchForm
  /-- The image offset of its first byte. -/
  offset : Nat
  /-- The origin in effect at the entry. -/
  origin : UInt32
  /-- The mode in effect at the entry; that of a mode directive is the one it sets. -/
  mode : Mode
  /-- The bytes it takes, with padding. -/
  size : Nat
  deriving DecidableEq

namespace Place

/-- The address of the first byte. -/
def address (p : Place) : Nat :=
  p.origin.toNat + p.offset

/-- The image offset behind the last byte. -/
def stop (p : Place) : Nat :=
  p.offset + p.size

/-- Where a label of the entry is. -/
def labelAddress (p : Place) : LabelAddress where
  offset := p.offset
  address := p.address

end Place

/-- Every entry of a stream in its place. -/
structure Layout where
  places : List Place
  /-- The image offset behind the last entry. -/
  stop : Nat
  deriving DecidableEq

namespace Layout

/-- Lays out a stream from the given cursor on. Entries for which `forms` names no form are
near. -/
def layFrom (c : Cursor) : Code → List BranchForm → Except AssemblyError Layout
  | [], _ => .ok { places := [], stop := c.offset }
  | e :: code, forms => do
    let form := forms.headD .near
    let (size, next) ← c.advance e form
    let rest ← layFrom next code forms.tail
    let place : Place := {
      entry := e, form, offset := c.offset, origin := c.origin, mode := e.modeAfter c.mode, size }
    pure { places := place :: rest.places, stop := rest.stop }

/-- Lays out a stream. -/
def compute (code : Code) (forms : List BranchForm) : Except AssemblyError Layout :=
  layFrom {} code forms

end Layout

end BootImage
