import BootImage.Link
import BootImage.Label.Resolve
import BootImage.Multiboot.Compose
import BootImage.RegisterPool
import BootImage.Session.FieldQuery

/-!
# Build sessions

A session collects what one image is built from: the code so far, the data put off to the end,
the texts that already have a place in it, the counters for generated labels, the layouts of
types, and the spare registers of the method being translated.
-/

namespace BootImage

open Multiboot

/-- An image in the making. -/
structure Session where
  code : Code := []
  /-- Data that goes behind the static fields. -/
  data : Code := []
  /-- The number of the next resource label. -/
  resources : Nat := 0
  /-- The number of the next comparison label. -/
  compares : Nat := 0
  /-- The texts in the data, with their labels. -/
  texts : List (String × String) := []
  /-- The layouts of types, the one registered last in front. -/
  types : List TypeLayout := []
  registers : RegisterPool := {}
  /-- The method being translated. -/
  method : Option String := none

namespace Session

/-- What the labels of resources start with. -/
def resourceStem : String := "Resource_"

/-- What the labels of comparisons start with. -/
def compareStem : String := "CMP_"

/-! ## Methods -/

/-- Starts to translate a method. Registers that are out stay out. -/
def beginMethod (s : Session) (name : String) : Session :=
  { s with method := some name, registers := s.registers.withMethod (some name) }

/-- Ends the current method, which must have given back all spare registers. -/
def endMethod (s : Session) : Except AssemblyError Session :=
  if s.registers.allFree then
    .ok { s with method := none, registers := s.registers.withMethod none }
  else .error (.registersNotReleased (s.method.getD "") s.registers.inUse)

/-! ## Labels and data -/

/-- A new label for a resource. -/
def resourceLabel (s : Session) : String × Session :=
  (resourceStem ++ toString s.resources, { s with resources := s.resources + 1 })

/-- A new label for a comparison. -/
def compareLabel (s : Session) : String × Session :=
  (compareStem ++ toString s.compares, { s with compares := s.compares + 1 })

/-- The label of a zero-terminated text in the data, which is put there if it is new. -/
def intern (s : Session) (text : String) : String × Session :=
  match s.texts.lookup text with
  | some label => (label, s)
  | none =>
    let (label, s) := s.resourceLabel
    (label, { s with
      data := s.data ++ [Entry.string label text]
      texts := (text, label) :: s.texts })

/-- Appends to the code. -/
def appendCode (s : Session) (code : Code) : Session :=
  { s with code := s.code ++ code }

/-- Appends to the deferred data. -/
def appendData (s : Session) (data : Code) : Session :=
  { s with data := s.data ++ data }

/-- Where a label is in the code so far. -/
def labelAddress (s : Session) (name : String) : Except AssemblyError LabelAddress :=
  resolveLabel s.code name

/-! ## Types -/

/-- Makes the layout of a type known, in place of an earlier one of the same name. -/
def registerType (s : Session) (layout : TypeLayout) : Session :=
  { s with types := layout :: s.types }

/-- The offset of a field, asked for as `Type::field`. -/
def fieldOffset (s : Session) (query : String) : Except AssemblyError Nat :=
  match FieldQuery.ofString? query with
  | none => .error (.notAFieldReference query)
  | some q =>
    match (s.types.find? (·.name == q.type)).bind (·.offsetOf? q.field) with
    | some offset => .ok offset
    | none => .error (.unknownField query)

/-! ## Images -/

/-- Appends the stream of a whole image to the code, with the deferred data in its place. No
method may hold spare registers. -/
def compose (s : Session) (program : Program) (config : Config) :
    Except AssemblyError Session :=
  match s.method with
  | some method =>
    if s.registers.allFree then .ok (composed s)
    else .error (.registersNotReleased method s.registers.inUse)
  | none => .ok (composed s)
where
  /-- The session behind a composition. -/
  composed (s : Session) : Session :=
    { s with code := s.code ++ Multiboot.compose program config s.data, data := [] }

/-- Composes and links an image that is written up to the end of its data. -/
def build (s : Session) (program : Program) (config : Config) : Except AssemblyError Image := do
  let composed ← s.compose program config
  link composed.code (some dataEndLabel)

end Session

end BootImage
