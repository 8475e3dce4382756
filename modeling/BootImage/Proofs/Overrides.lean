import BootImage.Proofs.Decoding.Decoder
import BootImage.Proofs.Decoding.Location

/-!
# The overrides in front of an instruction

An instruction may start with up to three overrides: of the segment, of the size of the address and
of the width of the operands. Each is a byte that no opcode starts with, so the overrides are found
in the bytes themselves, and those of a size can be told apart and taken out.

* `overrideArea`, `withoutSizeOverrides` — the overrides of a run of bytes, and the run without
  those of a size.
* `Encoding.overrideArea_bytes`, `Encoding.withoutSizeOverrides_bytes` — what these are for the
  bytes of an encoding.
* `Encoding.mem_overrides_address`, `Encoding.mem_overrides_operand` — which overrides there are.
-/

namespace BootImage

/-- Whether the byte is an override: of the segment, of the address size or of the operand size. -/
def isOverride (b : UInt8) : Bool :=
  (Segment.ofOverride? b).isSome || b == 0x67 || b == 0x66

/-- The overrides at the start of an instruction. -/
def overrideArea (bytes : List UInt8) : List UInt8 :=
  bytes.takeWhile isOverride

/-- An instruction without the size overrides at its start. -/
def withoutSizeOverrides (bytes : List UInt8) : List UInt8 :=
  (overrideArea bytes).filter (fun b => b != 0x67 && b != 0x66) ++ bytes.dropWhile isOverride

theorem isOverride_overrideByte (s : Segment) : isOverride s.overrideByte = true := by
  cases s <;> rfl

/-- Whether the first byte of the opcode is an override. -/
def Opcode.isOverride : Opcode → Bool
  | primary b => BootImage.isOverride (UInt8.ofNat b)
  | secondary _ => false

/-- The overrides are two columns of the arithmetic rows, and bytes between `60` and `68`. -/
theorem Opcode.isOverride_primary {b : Nat} (hlt : b < 256)
    (h : b < 0x40 ∧ b % 8 < 6 ∨ 0x40 ≤ b ∧ b < 0x60 ∨ 0x68 ≤ b) :
    (primary b).isOverride = false := by
  revert b
  decide +kernel

theorem Opcode.isOverride_register {base : Nat} (r : Register)
    (h : 0x40 ≤ base ∧ base + 8 ≤ 0x60 ∨ 0x68 ≤ base ∧ base + 8 ≤ 256) :
    (primary (base + r.code)).isOverride = false := by
  have hcode := r.code_lt
  exact isOverride_primary (by omega) (by omega)

/-! ## Encodings -/

namespace Encoding

variable {e : Encoding} {mode : Mode}

theorem isOverride_of_mem_overrides {b : UInt8} (hb : b ∈ e.overrides mode) :
    isOverride b = true := by
  simp only [overrides, addressOverride, operandOverride, List.mem_append, Option.mem_toList,
    Option.map_eq_some_iff, List.mem_ite_nil_right, List.mem_singleton] at hb
  rcases hb with (⟨s, -, rfl⟩ | ⟨-, rfl⟩) | ⟨-, rfl⟩
  · exact isOverride_overrideByte s
  · rfl
  · rfl

theorem exists_body_eq (h : e.opcode.isOverride = false) :
    ∃ b rest, e.body = b :: rest ∧ isOverride b = false := by
  unfold body
  cases hopcode : e.opcode with
  | primary b =>
    rw [hopcode] at h
    exact ⟨_, _, rfl, h⟩
  | secondary b => exact ⟨0x0F, _, rfl, rfl⟩

/-- The overrides of an encoding end at its opcode. -/
theorem overrideArea_bytes (h : e.opcode.isOverride = false) :
    overrideArea (e.bytes mode) = e.overrides mode := by
  obtain ⟨b, rest, hbody, hb⟩ := exists_body_eq h
  rw [overrideArea, bytes, hbody,
    List.takeWhile_append_of_pos fun b hb => isOverride_of_mem_overrides hb,
    List.takeWhile_cons_of_neg (by simp [hb]), List.append_nil]

theorem filter_overrides : (e.overrides mode).filter (fun b => b != 0x67 && b != 0x66) =
    (e.segment.map Segment.overrideByte).toList := by
  have hsegment : (e.segment.map Segment.overrideByte).toList.filter
      (fun b => b != 0x67 && b != 0x66) = (e.segment.map Segment.overrideByte).toList := by
    cases e.segment with
    | none => rfl
    | some s => cases s <;> rfl
  have haddress : (e.addressOverride mode).filter (fun b => b != 0x67 && b != 0x66) = [] := by
    unfold addressOverride
    split <;> rfl
  have hoperand : (e.operandOverride mode).filter (fun b => b != 0x67 && b != 0x66) = [] := by
    unfold operandOverride
    split <;> rfl
  rw [overrides, List.filter_append, List.filter_append, hsegment, haddress, hoperand,
    List.append_nil, List.append_nil]

/-- Without the size overrides, the bytes of an encoding are the same in both modes. -/
theorem withoutSizeOverrides_bytes (h : e.opcode.isOverride = false) :
    withoutSizeOverrides (e.bytes mode) =
      (e.segment.map Segment.overrideByte).toList ++ e.body := by
  obtain ⟨b, rest, hbody, hb⟩ := exists_body_eq h
  rw [withoutSizeOverrides, overrideArea_bytes h, filter_overrides, bytes, hbody,
    List.dropWhile_append_of_pos fun b hb => isOverride_of_mem_overrides hb,
    List.dropWhile_cons_of_neg (by simp [hb])]

theorem mem_overrides_address :
    0x67 ∈ e.overrides mode ↔ ∃ size, e.addressSize = some size ∧ size ≠ mode := by
  have hsegment (s : Segment) : s.overrideByte ≠ 0x67 := by cases s <;> decide
  simp [overrides, addressOverride, operandOverride, hsegment, Option.any_eq_true]

theorem mem_overrides_operand :
    0x66 ∈ e.overrides mode ↔ ∃ w, e.width = some w ∧ w.needsOverride mode = true := by
  have hsegment (s : Segment) : s.overrideByte ≠ 0x66 := by cases s <;> decide
  simp [overrides, addressOverride, operandOverride, hsegment, Option.any_eq_true]

end Encoding

end BootImage
