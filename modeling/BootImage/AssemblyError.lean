import BootImage.Register
import BootImage.Text.Hex

/-!
# Assembly errors

Everything that can stop an image from being built, as causes. Each cause carries what its
message names; `AssemblyError.message` holds all wording.
-/

namespace BootImage

open Text

/-- Why an instruction, a stream or an image was refused. -/
inductive AssemblyError where
  /-- A referenced label that the stream never defines. -/
  | undefinedLabel (label : String)
  /-- One exact spelling defined by two entries, at stream positions `first` and `second`. -/
  | duplicateLabel (label : String) (first second : Nat)
  /-- An offset marker for a place the cursor has already passed. -/
  | offsetBehindCursor (target current : Nat)
  /-- An alignment of zero. -/
  | invalidAlignment (value : Nat)
  /-- A branch displacement above `limit` or below `-limit - 1`. -/
  | branchOutOfRange (label : String) (displacement limit : Int)
  /-- A number that fits its field neither signed nor unsigned. -/
  | immediateOverflow (value : Int) (bits : Nat)
  /-- Operands that the instruction does not take. -/
  | invalidOperands (mnemonic detail : String)
  /-- A construct that has no encoding. -/
  | unsupported (construct : String)
  /-- No spare register is left. -/
  | registerExhausted (poolSize : Nat) (method : Option String)
  /-- A spare register was given back while it was free. -/
  | registerAlreadyFree (register : Register)
  /-- A register was given back that the pool does not own. -/
  | notASpareRegister (register : Register)
  /-- The register has no alias of the wanted width. -/
  | noNarrowAlias (register : Register) (bits : Nat)
  /-- A method ended while it held spare registers. -/
  | registersNotReleased (method : String) (held : Nat)
  /-- A field query without `::`. -/
  | notAFieldReference (value : String)
  /-- A field query for a type or field that is not known. -/
  | unknownField (field : String)
  /-- Jump shrinking was still making progress after `passes` passes. -/
  | relaxationLimit (passes : Nat)
  deriving DecidableEq

/-- The text of an error. -/
def AssemblyError.message : AssemblyError → String
  | undefinedLabel label => s!"label '{label}' has not been found"
  | duplicateLabel label first second =>
    s!"duplicate label '{label}' at instruction {second} (first defined at instruction {first})"
  | offsetBehindCursor target current =>
    s!"wrong offset {hexMarked target}: output cursor is already at {hexMarked current}"
  | invalidAlignment value => s!"invalid alignment {value}"
  | branchOutOfRange label displacement limit =>
    s!"branch target '{label}' out of range (displacement={displacement}, max=±{limit})"
  | immediateOverflow value bits => s!"immediate value {value} does not fit in {bits} bits"
  | invalidOperands mnemonic detail =>
    s!"invalid operand combination for '{mnemonic}': {detail}"
  | unsupported construct => s!"'{construct}' is not supported"
  | registerExhausted poolSize (some method) =>
    s!"no spare registers left ({poolSize} in pool) while translating '{method}'"
  | registerExhausted poolSize none => s!"no spare registers left ({poolSize} in pool)"
  | registerAlreadyFree register => s!"{register.name} is already free"
  | notASpareRegister register => s!"{register.name} is not a spare register"
  | noNarrowAlias register bits => s!"'{register.name}' has no {bits}-bit register"
  | registersNotReleased method held =>
    s!"'{method}' finished with {held} spare register(s) still in use"
  | notAFieldReference value => s!"'{value}' is no field definition"
  | unknownField field => s!"'{field}' has not been found"
  | relaxationLimit passes => s!"jump shrinking did not converge within {passes} passes"

end BootImage
