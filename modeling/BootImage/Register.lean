import BootImage.Mode

/-!
# Registers

A general-purpose register is a width and a three-bit number; a segment register has a number
of its own. These numbers are what ModR/M bytes, SIB bytes and the short opcodes hold. The
usual names are abbreviations that also work as patterns.
-/

namespace BootImage

/-- The segment registers. -/
inductive Segment where
  | es
  | cs
  | ss
  | ds
  | fs
  | gs
  deriving DecidableEq

namespace Segment

/-- The number in the middle field of ModR/M. -/
def code : Segment → Nat
  | es => 0
  | cs => 1
  | ss => 2
  | ds => 3
  | fs => 4
  | gs => 5

def name : Segment → String
  | es => "es"
  | cs => "cs"
  | ss => "ss"
  | ds => "ds"
  | fs => "fs"
  | gs => "gs"

/-- The byte that makes a memory operand use this segment. -/
def overrideByte : Segment → UInt8
  | es => 0x26
  | cs => 0x2E
  | ss => 0x36
  | ds => 0x3E
  | fs => 0x64
  | gs => 0x65

end Segment

/-- A register of 16-bit and 32-bit code. -/
inductive Register where
  | general (width : Width) (number : Fin 8)
  | segment (segment : Segment)
  deriving DecidableEq

namespace Register

@[match_pattern] abbrev eax : Register := .general .dword 0
@[match_pattern] abbrev ecx : Register := .general .dword 1
@[match_pattern] abbrev edx : Register := .general .dword 2
@[match_pattern] abbrev ebx : Register := .general .dword 3
@[match_pattern] abbrev esp : Register := .general .dword 4
@[match_pattern] abbrev ebp : Register := .general .dword 5
@[match_pattern] abbrev esi : Register := .general .dword 6
@[match_pattern] abbrev edi : Register := .general .dword 7
@[match_pattern] abbrev ax : Register := .general .word 0
@[match_pattern] abbrev cx : Register := .general .word 1
@[match_pattern] abbrev dx : Register := .general .word 2
@[match_pattern] abbrev bx : Register := .general .word 3
@[match_pattern] abbrev sp : Register := .general .word 4
@[match_pattern] abbrev bp : Register := .general .word 5
@[match_pattern] abbrev si : Register := .general .word 6
@[match_pattern] abbrev di : Register := .general .word 7
@[match_pattern] abbrev al : Register := .general .byte 0
@[match_pattern] abbrev cl : Register := .general .byte 1
@[match_pattern] abbrev dl : Register := .general .byte 2
@[match_pattern] abbrev bl : Register := .general .byte 3
@[match_pattern] abbrev ah : Register := .general .byte 4
@[match_pattern] abbrev ch : Register := .general .byte 5
@[match_pattern] abbrev dh : Register := .general .byte 6
@[match_pattern] abbrev bh : Register := .general .byte 7
@[match_pattern] abbrev es : Register := .segment .es
@[match_pattern] abbrev cs : Register := .segment .cs
@[match_pattern] abbrev ss : Register := .segment .ss
@[match_pattern] abbrev ds : Register := .segment .ds
@[match_pattern] abbrev fs : Register := .segment .fs
@[match_pattern] abbrev gs : Register := .segment .gs

/-- Every register: general-purpose by falling width, then the segment registers. -/
def all : List Register :=
  [eax, ecx, edx, ebx, esp, ebp, esi, edi, ax, cx, dx, bx, sp, bp, si, di,
    al, cl, dl, bl, ah, ch, dh, bh, es, cs, ss, ds, fs, gs]

/-- The number that stands for this register in an encoding. -/
def code : Register → Nat
  | general _ n => n.val
  | segment s => s.code

/-- The width of the register; a segment register holds a word. -/
def width : Register → Width
  | general w _ => w
  | segment _ => .word

def isSegment : Register → Bool
  | segment _ => true
  | general _ _ => false

def isGeneral (r : Register) : Bool :=
  !r.isSegment

/-- The names of the eight general-purpose registers of one width, by number. -/
def generalNames : Width → List String
  | .dword => ["eax", "ecx", "edx", "ebx", "esp", "ebp", "esi", "edi"]
  | .word => ["ax", "cx", "dx", "bx", "sp", "bp", "si", "di"]
  | .byte => ["al", "cl", "dl", "bl", "ah", "ch", "dh", "bh"]

/-- The lower-case name of the register. -/
def name : Register → String
  | general w n => (generalNames w).getD n.val ""
  | segment s => s.name

/-- The register with the given lower-case name. -/
def ofName? (name : String) : Option Register :=
  all.find? (·.name == name)

theorem code_lt (r : Register) : r.code < 8 := by
  cases r with
  | general w n => exact n.isLt
  | segment s => cases s <;> decide

theorem ofName?_name (r : Register) : ofName? r.name = some r := by
  cases r with
  | general w n => revert n; cases w <;> decide
  | segment s => cases s <;> decide

end Register

end BootImage
