import BootImage.Entry.Build

/-!
# 64-bit shifts

Three routines shift a 64-bit number, which code of 32-bit instructions cannot do at once. The
stack holds, above the return address, the high half, the low half and the count; the result is
in `edx:eax`. Each routine treats counts from 32 on apart, where one half of the result comes
wholly from the other half of the number.
-/

namespace BootImage.Multiboot

open Register Entry

/-- The routine for a shift to the left. -/
def shiftLeftLabel : String := "LSHL"

/-- The routine for a shift to the right that fills with zeros. -/
def shiftRightLabel : String := "LSHR"

/-- The routine for a shift to the right that fills with the sign. -/
def shiftArithmeticLabel : String := "LSAR"

/-- Loads the count into `ecx` and the number into `edx:eax`. -/
def loadShiftArguments : Code :=
  let argument (offset : Int) : Operand := (Memory.ofBase .dword esp).withDisplacement offset
  [mov ecx (argument 12), mov eax (argument 8), mov edx (argument 4)]

/-- The shift to the left. A count of 64 or more counts as 32 or more. -/
def shiftLeft : Code :=
  let start := shiftLeftLabel ++ "_START"
  let exit := shiftLeftLabel ++ "_EXIT"
  let high := shiftLeftLabel ++ "_HI_SHIFT"
  [.label shiftLeftLabel] ++ loadShiftArguments ++
  [ cmp ecx 64,
    jb start,
    or ecx 0x20,
    .label start,
    and ecx 63,
    test ecx ecx,
    jz exit,
    cmp ecx 32,
    jae high,
    push ebx,
    push esi,
    mov esi eax,
    shl esi cl,
    shl edx cl,
    mov ebx 32,
    sub ebx ecx,
    mov ecx ebx,
    shr eax cl,
    or edx eax,
    mov eax esi,
    pop esi,
    pop ebx,
    jmp exit,
    .label high,
    mov edx eax,
    xor eax eax,
    sub ecx 32,
    shl edx cl,
    .label exit,
    ret ]

/-- The shift to the right behind the given label. The high half is shifted by `shift`, and for
counts from 32 on the two halves are computed by `high`. -/
def shiftRightWith (label : String) (shift : Operand → Operand → Entry) (high : Code) : Code :=
  let exit := label ++ "_EXIT"
  let highLabel := label ++ "_HI_SHIFT"
  [.label label] ++ loadShiftArguments ++
  [ and ecx 63,
    test ecx ecx,
    jz exit,
    cmp ecx 32,
    jae highLabel,
    push ebx,
    push esi,
    mov esi edx,
    shift esi cl,
    shr eax cl,
    mov ebx 32,
    sub ebx ecx,
    mov ecx ebx,
    shl edx cl,
    or eax edx,
    mov edx esi,
    pop esi,
    pop ebx,
    jmp exit,
    .label highLabel,
    mov eax edx ] ++ high ++
  [ .label exit,
    ret ]

/-- The shift to the right that fills with zeros. -/
def shiftRight : Code :=
  shiftRightWith shiftRightLabel shr [xor edx edx, sub ecx 32, shr eax cl]

/-- The shift to the right that fills with the sign. -/
def shiftArithmetic : Code :=
  shiftRightWith shiftArithmeticLabel sar [sub ecx 32, sar eax cl, sar edx 31]

/-- All three routines. -/
def shiftRoutines : Code :=
  shiftLeft ++ shiftRight ++ shiftArithmetic

end BootImage.Multiboot
