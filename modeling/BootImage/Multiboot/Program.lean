import BootImage.Entry

/-!
# Programs

A program is a list of methods and a list of static fields. The types of its instance fields are
known by their layouts, which give the offset of each field.
-/

namespace BootImage.Multiboot

/-- The types of fields. -/
inductive FieldType where
  | i1
  | u1
  | i2
  | u2
  | i4
  | u4
  | i
  | u
  | r4
  | i8
  | u8
  | r8
  deriving DecidableEq

namespace FieldType

/-- The size in bytes of an integer of the machine. -/
def integerSize : Nat := 4

/-- The bytes that a field of this type takes. -/
def size : FieldType → Nat
  | i1 | u1 => 1
  | i2 | u2 => 2
  | i4 | u4 | i | u | r4 => integerSize
  | i8 | u8 | r8 => 8

/-- Whether values of this type live in memory while a method is translated, and not in a spare
register. -/
def needsSpill : FieldType → Bool
  | i8 | r4 | r8 => true
  | _ => false

end FieldType

/-- A static field: a named slot in the data of the image. -/
structure StaticField where
  name : String
  type : FieldType
  deriving DecidableEq

/-- The initial value of a static field is zero. -/
def StaticField.zero (field : StaticField) : DataValue :=
  match field.type.size with
  | 1 => .bytes [0]
  | 2 => .word 0
  | 4 => .dword 0
  | _ => .bytes (List.replicate 8 0)

/-- The fields of a type, in order. -/
structure TypeLayout where
  name : String
  fields : List (String × FieldType) := []
  deriving DecidableEq

namespace TypeLayout

/-- The offset of the first of `fields` with the given name, where they start at `offset`. -/
def offsetFrom (offset : Nat) (name : String) : List (String × FieldType) → Option Nat
  | [] => none
  | (field, type) :: fields =>
    if field = name then some offset else offsetFrom (offset + type.size) name fields

/-- The offset of a field: the sizes of the fields in front of it, added up. -/
def offsetOf? (layout : TypeLayout) (name : String) : Option Nat :=
  offsetFrom 0 name layout.fields

end TypeLayout

/-- A method and its code. -/
structure Method where
  name : String
  code : Code
  deriving DecidableEq

/-- What goes into an image. -/
structure Program where
  methods : List Method := []
  statics : List StaticField := []
  deriving DecidableEq

/-- Whether the program has a method of exactly this name. -/
def Program.hasMethod (program : Program) (name : String) : Bool :=
  program.methods.any (·.name == name)

end BootImage.Multiboot
