/-!
# Little-endian words

Every multi-byte field of an instruction or data directive is stored least significant byte
first. A negative number is stored in two's complement, so a field of `n` bytes holds a number
modulo `256 ^ n`.
-/

namespace BootImage

namespace Powers

/-- Powers of numbers are those of the core library, also where powers of a monoid are known. -/
scoped instance (priority := high) core {α : Type} [NatPow α] : Pow α Nat := instPowNat

end Powers

namespace LittleEndian

open scoped Powers

/-- The low `n` bytes of `v`, least significant first. -/
def ofNat : Nat → Nat → List UInt8
  | 0, _ => []
  | n + 1, v => UInt8.ofNat v :: ofNat n (v / 256)

/-- The low `n` bytes of the two's complement of `v`, least significant first. -/
def ofInt (n : Nat) (v : Int) : List UInt8 :=
  ofNat n (v % (256 ^ n : Nat)).toNat

/-- The number that a little-endian field holds. -/
def toNat : List UInt8 → Nat
  | [] => 0
  | b :: bs => b.toNat + 256 * toNat bs

@[simp] theorem length_ofNat (n v : Nat) : (ofNat n v).length = n := by
  induction n generalizing v with
  | zero => rfl
  | succ n ih => simp [ofNat, ih]

@[simp] theorem length_ofInt (n : Nat) (v : Int) : (ofInt n v).length = n :=
  length_ofNat n _

/-- Reading a field gives back the number it was written from, modulo its width. -/
theorem toNat_ofNat (n v : Nat) : toNat (ofNat n v) = v % 256 ^ n := by
  induction n generalizing v with
  | zero => simp [ofNat, toNat, Nat.mod_one]
  | succ n ih =>
    rw [Nat.pow_succ, Nat.mul_comm (256 ^ n) 256, Nat.mod_mul]
    simp [ofNat, toNat, ih]

end LittleEndian

end BootImage
