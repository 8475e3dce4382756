import BootImage.Multiboot.Config
import BootImage.Multiboot.Program
import BootImage.Multiboot.Shift

/-!
# Composition of an image

A multiboot image consists of the header, the entry stub, the methods, the shift routines, the
static fields, the deferred data, padding to a page boundary, and the boot stack. Nothing is
written from the label behind the padding on: the stack is only reserved.
-/

namespace BootImage.Multiboot

open Register Entry

/-- The eight dwords of the header: magic, flags and checksum, the addresses of the header and
of the image, and the addresses where the written data ends, where the image ends, and where it
is entered. -/
def header (config : Config) : Code :=
  [ dd magic,
    dd config.flags,
    dd (checksum magic config.flags),
    dd config.loadAddress,
    dd config.loadAddress,
    ddAddress dataEndLabel,
    ddAddress stackTopLabel,
    ddAddress entryLabel ]

/-- The call of the static constructor, if there is one and the program has a method of exactly
its name. -/
def constructorCall (config : Config) (program : Program) : Code :=
  match config.staticConstructor with
  | some method => if program.hasMethod method then [call (.label method)] else []
  | none => []

/-- The code that runs first: it sets up the stack, calls the static constructor and the entry
method, and stays in a loop when that returns. -/
def entryStub (config : Config) (program : Program) : Code :=
  [.org config.loadAddress, .label entryLabel, mov esp stackTopLabel] ++
  constructorCall config program ++
  [call (.label config.entry), .label haltLabel, jmp haltLabel]

/-- The code of the methods, each behind its name. -/
def methodCode (program : Program) : Code :=
  program.methods.flatMap fun method => .label method.name :: method.code

/-- A slot of zeros for each static field. -/
def staticData (program : Program) : Code :=
  program.statics.map fun field => named field.name field.zero

/-- The end of the data, and the stack. -/
def tail (config : Config) : Code :=
  [ .align config.pageAlignment,
    .label dataEndLabel,
    .times config.stackSize 0,
    .label stackTopLabel ]

/-- The stream of a whole image around the deferred data. -/
def compose (program : Program) (config : Config) (data : Code) : Code :=
  header config ++ entryStub config program ++ methodCode program ++ shiftRoutines ++
    staticData program ++ data ++ tail config

end BootImage.Multiboot
