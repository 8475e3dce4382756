import BootImage.Label.Index

/-!
# Flat images

A finished image is a run of bytes, the origin it is loaded at, the labels with their addresses,
and a listing with one line per stream entry. Labels are found up to letter case, and listed in
the order of their case-folded names.
-/

namespace BootImage

open Text

/-- A label of an image. -/
structure ImageLabel where
  /-- The name with its case folded. -/
  key : String
  /-- The name as its first definition spells it. -/
  name : String
  place : LabelAddress
  deriving DecidableEq

/-- The labels of an image, in increasing order of their keys. -/
structure LabelTable where
  labels : List ImageLabel := []
  deriving DecidableEq

namespace LabelTable

/-- Puts a label in front of the first one with a greater key. -/
def insertSorted (label : ImageLabel) : List ImageLabel → List ImageLabel
  | [] => [label]
  | l :: ls => if label.key < l.key then label :: l :: ls else l :: insertSorted label ls

/-- The labels that a laid-out stream defines, each at its first definition. -/
def ofLayout (index : LabelIndex) (layout : Layout) : LabelTable where
  labels := (LabelIndex.firstOfKey index.definitions).foldr (fun d labels =>
    match layout.places[d.position]? with
    | some p => insertSorted { key := d.key, name := d.name, place := p.labelAddress } labels
    | none => labels) []

/-- Where a label is. -/
def find? (table : LabelTable) (name : String) : Option LabelAddress :=
  let key := foldCase name
  (table.labels.find? (·.key == key)).map ImageLabel.place

end LabelTable

/-- A line of the listing: an entry, and which bytes of the image it wrote. -/
structure ListingLine where
  offset : Nat
  address : Nat
  /-- The number of bytes written, which is zero where space is only reserved. -/
  length : Nat
  text : String
  deriving DecidableEq

/-- A finished image. -/
structure Image where
  /-- The written bytes, without the space reserved at the end. -/
  bytes : List UInt8
  labels : LabelTable
  /-- The first origin that the stream sets. -/
  origin : UInt32
  /-- The number of passes of jump shrinking. -/
  passes : Nat
  /-- The number of jumps in short form. -/
  shrunk : Nat
  lines : List ListingLine

namespace Image

def size (image : Image) : Nat :=
  image.bytes.length

def isEmpty (image : Image) : Bool :=
  image.bytes.isEmpty

/-- Where a label is, up to letter case. -/
def label? (image : Image) (name : String) : Option LabelAddress :=
  image.labels.find? name

/-- The bytes that a line of the listing stands for. -/
def slice (image : Image) (line : ListingLine) : List UInt8 :=
  (image.bytes.drop line.offset).take line.length

end Image

namespace ListingLine

/-- The byte column of a line: the first eight bytes, and dots if there are more. -/
def byteColumn (bytes : List UInt8) : String :=
  let shown := (bytes.take 8).map fun b => hexPadded 2 b.toNat
  " ".intercalate (if bytes.length > 8 then shown ++ ["..."] else shown)

/-- The line for an entry that wrote the given bytes. -/
def render (line : ListingLine) (bytes : List UInt8) : String :=
  let column := padRight 27 (byteColumn bytes)
  s!"{hexPadded 8 line.offset}  {hexPadded 8 line.address}  {column} {line.text}\n"

end ListingLine

/-- The listing: offset, address, bytes and text of every entry. -/
def Image.listing (image : Image) : String :=
  String.join (image.lines.map fun line => line.render (image.slice line))

end BootImage
