import BootImage.Image
import BootImage.Relaxation

/-!
# Linking

Linking turns a stream into an image: it indexes the labels, shrinks jumps until the layout is
settled, and writes the bytes of every entry. From a chosen label on, a stream may only reserve
space: its entries are laid out and may be referred to, but nothing of them is written.
-/

namespace BootImage

namespace DataValue

open scoped Powers

/-- The bytes of a data value; `target` is the address of the label, if it has one. -/
def encode (v : DataValue) (target : Option Int) : Except AssemblyError (List UInt8) :=
  match v with
  | bytes bs => .ok bs
  | word w => .ok (LittleEndian.ofNat 2 w.toNat)
  | dword d => .ok (LittleEndian.ofNat 4 d.toNat)
  | address name =>
    match target with
    | none => .error (.undefinedLabel name)
    | some value =>
      if 0 ≤ value ∧ value < 2 ^ (32 : Nat) then .ok (LittleEndian.ofInt 4 value)
      else .error (.immediateOverflow value 32)

end DataValue

namespace Place

/-- The context in which the instruction at this place is encoded. -/
def context (p : Place) (r : Resolution) : Context where
  mode := p.mode
  form := p.form
  offset := p.offset
  target := r.target
  symbol := r.symbol
  counting := .numbers

/-- The bytes that the entry puts into the image. -/
def chunk (p : Place) (r : Resolution) : Except AssemblyError (List UInt8) :=
  match p.entry with
  | .bits _ | .org _ | .label _ => .ok []
  | .align _ | .offset _ => .ok (List.replicate p.size 0)
  | .times n fill => .ok (List.replicate n.toNat fill)
  | .data _ value => value.encode r.target
  | .instruction i => i.encode (p.context r)

/-- The listing line of the entry, which wrote its bytes if `written`. -/
def line (p : Place) (written : Bool) : ListingLine where
  offset := p.offset
  address := p.address
  length := if written then p.size else 0
  text := p.entry.text

end Place

/-- The origin that a stream sets first. -/
def firstOrigin (code : Code) : UInt32 :=
  (code.findSome? fun
    | .org origin => some origin
    | _ => none).getD 0

/-- The number of entries in front of the label `marker`, and of all entries without a
marker. -/
def writtenEntries (code : Code) (index : LabelIndex) :
    Option String → Except AssemblyError Nat
  | none => .ok code.length
  | some marker => index.require marker

/-- Writes the bytes of the first `written` entries and lists all of them. -/
def emit (code : Code) (index : LabelIndex) (relaxed : Relaxed) (written : Nat) :
    Except AssemblyError Image := do
  let places := relaxed.layout.places
  let chunks ← ((places.zip relaxed.resolutions).take written).mapM fun (p, r) => p.chunk r
  pure {
    bytes := chunks.flatten
    labels := .ofLayout index relaxed.layout
    origin := firstOrigin code
    passes := relaxed.passes
    shrunk := (places.filter (·.form == .short)).length
    lines := (places.take written).map (·.line true) ++ (places.drop written).map (·.line false) }

/-- Links a stream. With a `marker`, nothing is written from the entry on that defines it. -/
def link (code : Code) (marker : Option String) : Except AssemblyError Image := do
  let index ← LabelIndex.build code
  let relaxed ← relax code index
  let written ← writtenEntries code index marker
  emit code index relaxed written

/-- The bytes of a stream that is written to its end. -/
def assemble (code : Code) : Except AssemblyError (List UInt8) := do
  let image ← link code none
  pure image.bytes

end BootImage
