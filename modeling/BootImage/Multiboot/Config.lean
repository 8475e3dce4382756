import BootImage.Register

/-!
# Parameters of a multiboot image

A boot loader recognises an image by the multiboot header at its start: a magic number, flags,
and a checksum that makes the three add up to zero.
-/

namespace BootImage.Multiboot

/-- The number that marks a multiboot header. -/
def magic : UInt32 := 0x1BADB002

/-- The default flags: modules on page boundaries, memory information, and addresses in the
header. -/
def defaultFlags : UInt32 := 0x00010003

/-- The size of the header in bytes. -/
def headerSize : Nat := 32

/-- What magic number and flags lack to zero. -/
def checksum (magic flags : UInt32) : UInt32 := 0 - (magic + flags)

theorem magic_add_flags_add_checksum (magic flags : UInt32) :
    magic + flags + checksum magic flags = 0 := by
  rw [checksum, UInt32.zero_sub, UInt32.add_right_neg]

/-! ## Labels of the image -/

/-- The first instruction to run. -/
def entryLabel : String := "__image_entry"

/-- The endless loop behind the entry method. -/
def haltLabel : String := "__image_halt"

/-- The end of what is written. -/
def dataEndLabel : String := "__image_data_end"

/-- The top of the boot stack. -/
def stackTopLabel : String := "__image_stack_top"

/-- The parameters of an image. -/
structure Config where
  /-- Where the boot loader puts the start of the image. -/
  loadAddress : UInt32 := 0x00100000
  flags : UInt32 := defaultFlags
  /-- The size of the boot stack in bytes. -/
  stackSize : UInt32 := 8192
  /-- What the end of the written data is a multiple of. -/
  pageAlignment : UInt32 := 4096
  /-- The method that the image runs. -/
  entry : String := "kernel_main"
  /-- The method that runs before the entry method, if the program has it. -/
  staticConstructor : Option String := none
  deriving DecidableEq

end BootImage.Multiboot
