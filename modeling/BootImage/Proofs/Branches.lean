import BootImage.Link
import BootImage.Proofs.Checked

/-!
# Branches to labels

A branch to a label is its opcode and a signed field, which holds the distance from the end of the
branch to the label. The form and the mode fix how long both are, so the length of a branch does
not depend on where its target is; only whether the distance fits the field does.

* `Mnemonic.branchOpcode`, `Mnemonic.distanceWidth` — the opcode of a branch and its field.
* `Counting.distance_emod`, `Counting.distance_eq_sub` — distances wrap around, but only if they do
  not fit a word.
* `encoding_branch` — the encoding of a branch in a context.
* `length_branch`, `branchLength_short`, `two_lt_branchLength_near` — the length of a branch.
* `toInt_ofInt` — a signed field reads back as the distance written to it.
-/

namespace BootImage

/-! ## Signed fields -/

namespace LittleEndian

/-- The signed number that a little-endian field holds in two's complement. -/
def toInt (bs : List UInt8) : Int :=
  (toNat bs : Int).bmod (256 ^ bs.length)

theorem toNat_ofInt (n : Nat) (v : Int) : (toNat (ofInt n v) : Int) = v % (256 ^ n : Nat) := by
  have hpos : (0 : Int) < (256 ^ n : Nat) := by positivity
  have hnonneg := Int.emod_nonneg v hpos.ne'
  have hlt := Int.emod_lt_of_pos v hpos
  rw [ofInt, toNat_ofNat, Nat.mod_eq_of_lt (by omega), Int.toNat_of_nonneg hnonneg]

end LittleEndian

namespace Width

/-- Whether a signed field of width `w` holds `v`. -/
def Reaches (w : Width) (v : Int) : Prop :=
  -2 ^ (w.bits - 1) ≤ v ∧ v < 2 ^ (w.bits - 1)

instance (w : Width) (v : Int) : Decidable (w.Reaches v) :=
  inferInstanceAs (Decidable (_ ∧ _))

theorem reaches_byte {v : Int} : Width.byte.Reaches v ↔ FitsByte v := by
  simp only [Reaches, FitsByte, bits]
  omega

/-- A field reads back as the distance written to it. -/
theorem toInt_ofInt {w : Width} {v : Int} (h : w.Reaches v) :
    LittleEndian.toInt (LittleEndian.ofInt w.bytes v) = v := by
  rw [LittleEndian.toInt, LittleEndian.length_ofInt, LittleEndian.toNat_ofInt, Int.emod_bmod]
  cases w <;> simp only [Reaches, bits, bytes] at h ⊢ <;> rw [Int.bmod_eq_of_le] <;> omega

end Width

namespace Encoding

theorem distanceField_of_reaches {label : String} {w : Width} {v : Int} (h : w.Reaches v) :
    distanceField label w v = .ok (LittleEndian.ofInt w.bytes v) := by
  have : -(2 ^ (w.bits - 1) - 1 : Int) - 1 ≤ v ∧ v ≤ 2 ^ (w.bits - 1) - 1 :=
    ⟨by linarith [h.1], by linarith [h.2]⟩
  rw [distanceField, if_pos this]

theorem distanceField_of_not_reaches {label : String} {w : Width} {v : Int} (h : ¬w.Reaches v) :
    distanceField label w v = .error (.branchOutOfRange label v (2 ^ (w.bits - 1) - 1)) := by
  have : ¬(-(2 ^ (w.bits - 1) - 1 : Int) - 1 ≤ v ∧ v ≤ 2 ^ (w.bits - 1) - 1) :=
    fun hv => h ⟨by linarith [hv.1], by linarith [hv.2]⟩
  rw [distanceField, if_neg this]

theorem distanceField_eq_ok {label : String} {w : Width} {v : Int} {field : List UInt8} :
    distanceField label w v = .ok field ↔ w.Reaches v ∧ field = LittleEndian.ofInt w.bytes v := by
  by_cases h : w.Reaches v
  · simp [distanceField_of_reaches h, h, eq_comm]
  · simp [distanceField_of_not_reaches h, h]

end Encoding

/-! ## Distances -/

namespace Counting

variable {counting : Counting} {offset : Nat} {target : Int}

theorem distance_words :
    words.distance offset target = (target - offset).bmod (2 ^ 64) := by
  have hoffset : (UInt64.ofNat offset).toInt64 = Int64.ofNat offset := rfl
  rw [distance, hoffset, Int64.toInt_sub, Int64.toInt_ofInt, Int64.toInt_ofNat']
  exact (Int.sub_bmod ..).symm

/-- A distance is right up to multiples of the size of a word. -/
theorem distance_emod : counting.distance offset target % 2 ^ 64 = (target - offset) % 2 ^ 64 := by
  cases counting with
  | words =>
    rw [distance_words]
    exact Int.bmod_emod
  | numbers => rfl

theorem distance_eq_sub (hle : -2 ^ 63 ≤ target - offset) (hlt : target - offset < 2 ^ 63) :
    counting.distance offset target = target - offset := by
  cases counting with
  | words =>
    rw [distance_words]
    exact Int.bmod_eq_of_le hle hlt
  | numbers => rfl

end Counting

/-! ## The encoding of a branch -/

/-- The opcode of a branch to a label in the given form. -/
def Mnemonic.branchOpcode (m : Mnemonic) (form : BranchForm) : Opcode :=
  match m, form with
  | .jmp, .near => .primary 0xE9
  | .jmp, .short => .primary 0xEB
  | .jcc c, .near => .secondary (0x80 + c.code)
  | .jcc c, .short => .primary (0x70 + c.code)
  | _, _ => .primary 0xE8

/-- The width of the distance in a branch to a label: a byte in a short jump. -/
def Mnemonic.distanceWidth (m : Mnemonic) (form : BranchForm) (mode : Mode) : Width :=
  match form with
  | .short => if m.isJump then .byte else mode.width
  | .near => mode.width

namespace Instruction

variable {i : Instruction} {name : String}

/-- The bytes of a branch to a label. -/
def branchLength (i : Instruction) (form : BranchForm) (mode : Mode) : Nat :=
  (i.mnemonic.branchOpcode form).length + (i.mnemonic.distanceWidth form mode).bytes

theorem operands_of_soleLabel? (h : i.soleLabel? = some name) : i.operands = [.label name] := by
  unfold soleLabel? at h
  split at h
  · rename_i heq
    cases h
    exact heq
  · cases h

/-- A branch to a label is its opcode and the distance to the label. -/
theorem encoding_branch (h : i.branchTarget? = some name) (cx : Context) :
    i.encoding cx = (do
      let field ← Encoding.distanceField name (i.mnemonic.distanceWidth cx.form cx.mode)
        (Encoding.branchDistance cx (i.branchLength cx.form cx.mode))
      pure { opcode := i.mnemonic.branchOpcode cx.form, immediate := field }) := by
  obtain ⟨mnemonic, operands⟩ := i
  obtain ⟨mode, form, offset, target, symbol, counting⟩ := cx
  unfold branchTarget? at h
  split at h
  case isFalse => cases h
  rename_i hbranch
  obtain rfl : operands = [.label name] := operands_of_soleLabel? h
  cases mnemonic <;> simp only [Mnemonic.isBranch, Bool.false_eq_true] at hbranch <;>
    cases form <;> rfl

theorem encode_branch (h : i.branchTarget? = some name) (cx : Context) :
    i.encode cx = (do
      let field ← Encoding.distanceField name (i.mnemonic.distanceWidth cx.form cx.mode)
        (Encoding.branchDistance cx (i.branchLength cx.form cx.mode))
      pure ((i.mnemonic.branchOpcode cx.form).bytes ++ field)) := by
  rw [encode, encoding_branch h]
  cases Encoding.distanceField name (i.mnemonic.distanceWidth cx.form cx.mode)
    (Encoding.branchDistance cx (i.branchLength cx.form cx.mode)) with
  | error err => rfl
  | ok field => simp [Encoding.bytes, Encoding.overrides, Encoding.addressOverride,
      Encoding.operandOverride, Encoding.body, pure, Except.pure]

theorem reaches_zero (w : Width) : w.Reaches 0 := by
  cases w <;> decide

theorem length_branch (h : i.branchTarget? = some name) (mode : Mode) (form : BranchForm) :
    i.length mode form = .ok (i.branchLength form mode) := by
  have hfield : Encoding.distanceField name (i.mnemonic.distanceWidth form mode) 0 = .ok _ :=
    Encoding.distanceField_of_reaches (reaches_zero _)
  have hdistance : Encoding.branchDistance (.sizing mode form) (i.branchLength form mode) = 0 :=
    rfl
  simp only [length, encode_branch h, Context.sizing] at hdistance ⊢
  rw [hdistance, hfield]
  simp [branchLength, pure, Except.pure]

/-! ## Jumps -/

theorem branchTarget?_of_isShrinkable (h : i.isShrinkable = true) :
    ∃ name, i.branchTarget? = some name := by
  unfold isShrinkable at h
  obtain ⟨hjump, hlabel⟩ := Bool.and_eq_true_iff.1 h
  obtain ⟨name, hname⟩ := Option.isSome_iff_exists.1 hlabel
  have hbranch : i.mnemonic.isBranch = true := by
    cases hm : i.mnemonic <;> simp_all [Mnemonic.isJump, Mnemonic.isBranch]
  exact ⟨name, by rw [branchTarget?, if_pos hbranch, hname]⟩

theorem isJump_of_isShrinkable (h : i.isShrinkable = true) : i.mnemonic.isJump = true :=
  (Bool.and_eq_true_iff.1 h).1

theorem branchLength_short (h : i.mnemonic.isJump = true) (mode : Mode) :
    i.branchLength .short mode = 2 := by
  cases hm : i.mnemonic <;>
    simp_all [Mnemonic.isJump, branchLength, Mnemonic.branchOpcode, Mnemonic.distanceWidth,
      Opcode.length, Width.bytes]

theorem two_lt_branchLength_near (i : Instruction) (mode : Mode) :
    2 < i.branchLength .near mode := by
  have hopcode : 1 ≤ (i.mnemonic.branchOpcode .near).length := by
    cases i.mnemonic.branchOpcode .near <;> simp [Opcode.length]
  have hwidth : 2 ≤ mode.width.bytes := by cases mode <;> decide
  simp only [branchLength, Mnemonic.distanceWidth]
  omega

end Instruction

end BootImage
