import BootImage.AssemblyError
import BootImage.Operand.Memory

/-!
# Spare registers

While a method is translated, three registers may be borrowed for intermediate values: `eax`,
`ecx` and `edx`. The pool hands out the first that is free and takes each back once.
-/

namespace BootImage

/-- The registers of the pool, in the order in which they are handed out. -/
inductive SpareRegister where
  | eax
  | ecx
  | edx
  deriving DecidableEq

namespace SpareRegister

def all : List SpareRegister := [eax, ecx, edx]

def register : SpareRegister → Register
  | eax => .eax
  | ecx => .ecx
  | edx => .edx

/-- The spare register that a register is, if any. -/
def ofRegister? (r : Register) : Option SpareRegister :=
  all.find? (·.register == r)

end SpareRegister

/-- The registers that are out, and the method that is being translated. -/
structure RegisterPool where
  used : List SpareRegister := []
  method : Option String := none
  deriving DecidableEq

namespace RegisterPool

/-- Names the method being translated, for error messages. -/
def withMethod (pool : RegisterPool) (method : Option String) : RegisterPool :=
  { pool with method }

/-- Hands out the first free register. -/
def acquire (pool : RegisterPool) : Except AssemblyError (SpareRegister × RegisterPool) :=
  match SpareRegister.all.find? (!pool.used.contains ·) with
  | some spare => .ok (spare, { pool with used := spare :: pool.used })
  | none => .error (.registerExhausted SpareRegister.all.length pool.method)

/-- Takes back a register, by name. -/
def releaseRegister (pool : RegisterPool) (r : Register) : Except AssemblyError RegisterPool :=
  match SpareRegister.ofRegister? r with
  | none => .error (.notASpareRegister r)
  | some spare =>
    if pool.used.contains spare then .ok { pool with used := pool.used.erase spare }
    else .error (.registerAlreadyFree r)

/-- Takes back a register that was handed out. -/
def release (pool : RegisterPool) (spare : SpareRegister) : Except AssemblyError RegisterPool :=
  pool.releaseRegister spare.register

/-- Whether the register is in the pool and free. -/
def isFree (pool : RegisterPool) (r : Register) : Bool :=
  (SpareRegister.ofRegister? r).any (!pool.used.contains ·)

/-- The number of registers that are out. -/
def inUse (pool : RegisterPool) : Nat :=
  pool.used.length

def allFree (pool : RegisterPool) : Bool :=
  pool.used.isEmpty

end RegisterPool

/-- The alias of a register that holds its low byte or word. Only `eax`, `ecx`, `edx` and `ebx`
have both. -/
def Register.narrow (r : Register) (size : AccessSize) : Except AssemblyError Register :=
  match r, size with
  | .general .dword n, .byte =>
    if n.val < 4 then .ok (.general .byte n) else .error (.noNarrowAlias r size.bits)
  | .general .dword n, .word =>
    if n.val < 4 then .ok (.general .word n) else .error (.noNarrowAlias r size.bits)
  | _, _ => .error (.noNarrowAlias r size.bits)

end BootImage
