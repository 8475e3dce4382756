import BootImage.Instruction
import BootImage.LittleEndian
import BootImage.Text.CaseFold

/-!
# Stream entries

An image is described by a stream of entries: machine instructions, data, labels, and the
directives that set the mode and the origin, reserve space, or move the output cursor. An entry
may define one label and may refer to labels, as branch target or as address.
-/

namespace BootImage

open Text

/-- What a data directive puts into the image. -/
inductive DataValue where
  | bytes (bytes : List UInt8)
  | word (value : UInt16)
  | dword (value : UInt32)
  /-- The address of a label, as a dword. -/
  | address (label : String)
  deriving DecidableEq

namespace DataValue

/-- The number of bytes the directive puts into the image. -/
def length : DataValue → Nat
  | bytes bs => bs.length
  | word _ => 2
  | dword _ | address _ => 4

def isEmpty (v : DataValue) : Bool :=
  v.length == 0

/-- The directive that declares such a value. -/
def directive : DataValue → String
  | bytes _ => "db"
  | word _ => "dw"
  | dword _ | address _ => "dd"

/-- The value in assembler notation, behind its directive. -/
def text (v : DataValue) : String :=
  let marked (digits n : Nat) : String := "0x" ++ hexPadded digits n
  let value := match v with
    | bytes bs => ", ".intercalate (bs.map fun b => marked 2 b.toNat)
    | word w => marked 4 w.toNat
    | dword d => marked 8 d.toNat
    | address label => label
  v.directive ++ " " ++ value

end DataValue

/-- How a resolved reference is written. -/
inductive ReferenceKind where
  /-- As the address of the label. -/
  | absolute
  /-- As the distance to the label from the end of the instruction. -/
  | relative
  deriving DecidableEq

/-- A label that an entry refers to. -/
structure Reference where
  label : String
  kind : ReferenceKind
  deriving DecidableEq

/-- One entry of a stream. -/
inductive Entry where
  /-- What follows is code of this mode. -/
  | bits (mode : Mode)
  /-- Addresses of what follows are this number plus the image offset. -/
  | org (origin : UInt32)
  /-- Zeros up to the next multiple of `boundary`. -/
  | align (boundary : UInt32)
  /-- A run of one byte. -/
  | times (length : UInt32) (fill : UInt8)
  /-- Zeros up to the image offset `target`. -/
  | offset (target : UInt32)
  /-- A name for the place of the next byte. -/
  | label (name : String)
  /-- Data, with a name for its first byte if there is one. -/
  | data (label : Option String) (value : DataValue)
  | instruction (i : Instruction)
  deriving DecidableEq

/-- A stream of entries, in program order. -/
abbrev Code := List Entry

namespace Entry

/-- The label that the entry defines. -/
def label? : Entry → Option String
  | label name => some name
  | data (some name) _ => some name
  | _ => none

/-- Whether the entry defines `name`, up to letter case. -/
def defines (e : Entry) (name : String) : Bool :=
  e.label?.any (sameName · name)

/-- The label that the entry refers to, other than in a memory operand. -/
def reference? : Entry → Option Reference
  | instruction i =>
    match i.branchTarget? with
    | some target => some ⟨target, .relative⟩
    | none => i.absoluteLabel?.map fun target => ⟨target, .absolute⟩
  | data _ (.address target) => some ⟨target, .absolute⟩
  | _ => none

/-- Whether the entry refers to a label by its distance. -/
def isRelative (e : Entry) : Bool :=
  e.reference?.any (·.kind == .relative)

/-- The first memory operand of an instruction. -/
def memory? : Entry → Option Memory
  | instruction i => i.memory?
  | _ => none

/-- The label in the first memory operand, and the constant added to its address. -/
def memoryLabel? (e : Entry) : Option (String × Int) :=
  e.memory?.bind Memory.labelRef?

/-- Whether the entry is a jump to a label, which has a short form. -/
def isShrinkable : Entry → Bool
  | instruction i => i.isShrinkable
  | _ => false

/-- Whether the entry is anything but a machine instruction. -/
def isDirective : Entry → Bool
  | instruction _ => false
  | _ => true

/-- The mode in effect once the entry has been read in mode `current`. -/
def modeAfter (e : Entry) (current : Mode) : Mode :=
  match e with
  | bits mode => mode
  | _ => current

/-- The origin in effect once the entry has been read under the origin `current`. -/
def originAfter (e : Entry) (current : UInt32) : UInt32 :=
  match e with
  | org origin => origin
  | _ => current

/-- The name of the directive or mnemonic. -/
def name : Entry → String
  | bits _ => "bits"
  | org _ => "org"
  | align _ => "align"
  | times _ _ => "times"
  | offset _ => "offset"
  | label _ => "label"
  | data _ value => value.directive
  | instruction i => i.mnemonic.name

/-- The entry in assembler notation. -/
def text : Entry → String
  | bits mode => s!"bits {mode.bits}"
  | org origin => "org " ++ hexMarked origin.toNat
  | align boundary => s!"align {boundary.toNat}"
  | times length fill => s!"times {length.toNat} db 0x{hexPadded 2 fill.toNat}"
  | offset target => "offset " ++ hexMarked target.toNat
  | label name => name ++ ":"
  | data none value => value.text
  | data (some name) value => name ++ ": " ++ value.text
  | instruction i => i.text

end Entry

end BootImage
