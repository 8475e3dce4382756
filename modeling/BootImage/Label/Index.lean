import BootImage.Layout

/-!
# The label index

The index finds the entry that defines a label. Names match up to letter case and the first
definition counts, so two spellings of one name may both be defined; the same spelling may not
be defined twice.
-/

namespace BootImage

open Text

/-- A label definition in a stream. -/
structure Definition where
  /-- The position of the defining entry in the stream. -/
  position : Nat
  name : String
  /-- The name with its case folded, under which it is found. -/
  key : String
  deriving DecidableEq

/-- The label definitions of a stream, in stream order. -/
structure LabelIndex where
  definitions : List Definition

namespace LabelIndex

/-- The definitions in a stream whose first entry has the given position. -/
def definitionsFrom (position : Nat) : Code → List Definition
  | [] => []
  | e :: code =>
    let rest := definitionsFrom (position + 1) code
    match e.label? with
    | some name => { position, name, key := foldCase name } :: rest
    | none => rest

/-- The first definition that repeats the spelling of one in `seen` or before it in the list,
behind the one that it repeats. -/
def firstRepeat? (seen : List Definition) : List Definition → Option (Definition × Definition)
  | [] => none
  | d :: ds =>
    match seen.find? (·.name == d.name) with
    | some first => some (first, d)
    | none => firstRepeat? (d :: seen) ds

/-- The definitions without those whose key an earlier one has. -/
def firstOfKey : List Definition → List Definition
  | [] => []
  | d :: ds => d :: (firstOfKey ds).filter (·.key != d.key)

/-- Indexes the labels of a stream. -/
def build (code : Code) : Except AssemblyError LabelIndex :=
  let definitions := definitionsFrom 0 code
  match firstRepeat? [] definitions with
  | some (first, second) => .error (.duplicateLabel second.name first.position second.position)
  | none => .ok { definitions }

/-- The first definition of a name. -/
def find? (index : LabelIndex) (name : String) : Option Definition :=
  let key := foldCase name
  index.definitions.find? (·.key == key)

/-- The position of the entry that defines a name. -/
def get? (index : LabelIndex) (name : String) : Option Nat :=
  (index.find? name).map Definition.position

/-- The position of the entry that defines a name, which must exist. -/
def require (index : LabelIndex) (name : String) : Except AssemblyError Nat :=
  match index.get? name with
  | some position => .ok position
  | none => .error (.undefinedLabel name)

/-- The number of names, with spellings of one name counted once. -/
def size (index : LabelIndex) : Nat :=
  (firstOfKey index.definitions).length

def isEmpty (index : LabelIndex) : Bool :=
  index.definitions.isEmpty

end LabelIndex

/-- The position and place of the entry that defines a name. -/
def Layout.locate (layout : Layout) (index : LabelIndex) (name : String) :
    Except AssemblyError (Nat × Place) :=
  match index.get? name with
  | none => .error (.undefinedLabel name)
  | some position =>
    match layout.places[position]? with
    | some place => .ok (position, place)
    | none => .error (.undefinedLabel name)

end BootImage
