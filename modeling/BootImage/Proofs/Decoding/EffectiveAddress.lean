import BootImage.Proofs.Decoding.Location

/-!
# Effective addresses

A memory operand stands for an address that depends on what the registers hold: the base, the
scaled index and the displacement added up, modulo the size of the address. Its addressing bytes
make the processor compute just that address. Some registers and scales no addressing bytes can
name; apart from them an operand is only refused where its displacement does not fit.

* `Addressing.effectiveAddress`, `Memory.effectiveAddress` — the address that addressing bytes and
  operands stand for.
* `Memory.Unaddressable` — what no addressing bytes can name.
* `Memory.unsupported_of_unaddressable`, `Memory.addressing_of_addressable` — what becomes of an
  operand.
* `Memory.addressing_effectiveAddress` — an operand and its addressing bytes stand for one address.
-/

namespace BootImage

theorem Mode.bits_width (size : Mode) : size.width.bits = size.bits := by
  cases size <;> rfl

/-! ## Addresses -/

/-- The address that addressing bytes stand for, where `values` are the contents of registers. -/
def Addressing.effectiveAddress (a : Addressing) (size : Mode) (values : Register → Int) : Int :=
  ((a.base? size).elim 0 values + (a.index? size).elim 0 values * a.scale size +
    LittleEndian.toInt a.displacement) % 2 ^ size.bits

/-- The address that an operand stands for, at the given size. -/
def Memory.effectiveAddress (m : Memory) (size : Mode) (symbol : Option Int)
    (values : Register → Int) : Int :=
  (m.base.elim 0 values + m.index.elim 0 values * m.scale + (m.displacementValue symbol).value) %
    2 ^ size.bits

/-- The address of addressing bytes depends only on the parts that they denote. -/
theorem Addressing.Denotes.effectiveAddress {a : Addressing} {size : Mode} {reg scale : Nat}
    {base index : Option Register} {v : Int}
    (h : a.Denotes size reg base index scale (v % 2 ^ size.width.bits))
    (values : Register → Int) :
    a.effectiveAddress size values =
      (base.elim 0 values + index.elim 0 values * scale + v) % 2 ^ size.bits := by
  have hdisplacement := h.displacement_eq
  rw [Mode.bits_width] at hdisplacement
  rw [Addressing.effectiveAddress, h.base_eq, h.index_eq, h.scale_eq]
  exact Int.add_emod_eq_add_emod_left _ hdisplacement

namespace Memory

/-- The registers of a 16-bit address: at most one of `bx` and `bp` and at most one of `si` and
`di`, each as base or as index. -/
def Pairs16 (m : Memory) : Prop :=
  ∃ base ∈ [none, some .bx, some .bp], ∃ index ∈ [none, some .si, some .di],
    (m.base = base ∧ m.index = index) ∨ (m.base = index ∧ m.index = base)

/-- The operands that no addressing bytes can name. -/
inductive Unaddressable (m : Memory) (mode : Mode) : Prop
  /-- A segment register or a byte register is part of the address. -/
  | register {r : Register} (hr : m.base = some r ∨ m.index = some r)
      (h : r.isSegment = true ∨ r.width = .byte)
  /-- The registers differ in width. -/
  | mixed {base index : Register} (hbase : m.base = some base) (hindex : m.index = some index)
      (h : base.width ≠ index.width)
  /-- The index is multiplied by something other than 1, 2, 4 and 8. -/
  | scale (hindex : m.index.isSome = true) (h : m.scale ∉ [1, 2, 4, 8])
  /-- The number of `esp` as an index means that there is none. -/
  | esp (h : m.index = some .esp)
  /-- A 16-bit address has an index that is multiplied. -/
  | scale16 (hsize : m.addressSize mode = .ok .bits16) (hindex : m.index.isSome = true)
      (h : m.scale ≠ 1)
  /-- A 16-bit address has other registers than it can have. -/
  | registers16 (hsize : m.addressSize mode = .ok .bits16) (h : ¬m.Pairs16)

variable {m : Memory} {mode size : Mode} {disp : Immediate} {symbol : Option Int} {reg : Nat}
  {a : Addressing}

/-! ## Sizes of addresses -/

theorem unsupported_of_registerAddressSize {r : Register} {err : AssemblyError}
    (h : registerAddressSize r = .error err) : ∃ text, err = .unsupported text := by
  cases r with
  | segment s =>
    cases h
    exact ⟨_, rfl⟩
  | general w n =>
    cases w <;> cases h
    exact ⟨_, rfl⟩

theorem unsupported_of_addressSize {err : AssemblyError} (h : m.addressSize mode = .error err) :
    ∃ text, err = .unsupported text := by
  unfold addressSize at h
  cases hb : m.base with
  | none =>
    cases hi : m.index with
    | none =>
      rw [hb, hi] at h
      cases h
    | some index =>
      rw [hb, hi] at h
      exact unsupported_of_registerAddressSize h
  | some base =>
    cases hi : m.index with
    | none =>
      rw [hb, hi] at h
      exact unsupported_of_registerAddressSize h
    | some index =>
      rw [hb, hi] at h
      rcases bind_eq_error.1 h with h | ⟨size, -, h⟩
      · exact unsupported_of_registerAddressSize h
      rcases bind_eq_error.1 h with h | ⟨size', -, h⟩
      · exact unsupported_of_registerAddressSize h
      split at h <;> cases h
      exact ⟨_, rfl⟩

theorem exists_registerAddressSize {r : Register} (h : ¬(r.isSegment = true ∨ r.width = .byte)) :
    ∃ size, registerAddressSize r = .ok size ∧ r.width = size.width := by
  cases r with
  | segment s => exact absurd (.inl rfl) h
  | general w n =>
    cases w with
    | byte => exact absurd (.inr rfl) h
    | word => exact ⟨.bits16, rfl, rfl⟩
    | dword => exact ⟨.bits32, rfl, rfl⟩

theorem exists_addressSize
    (hregister : ∀ r, m.base = some r ∨ m.index = some r → ¬(r.isSegment = true ∨ r.width = .byte))
    (hmixed : ∀ base index, m.base = some base → m.index = some index → base.width = index.width) :
    ∃ size, m.addressSize mode = .ok size := by
  unfold addressSize
  cases hb : m.base with
  | none =>
    cases hi : m.index with
    | none => exact ⟨mode, rfl⟩
    | some index =>
      obtain ⟨size, hsize, -⟩ := exists_registerAddressSize (hregister index (.inr hi))
      exact ⟨size, hsize⟩
  | some base =>
    obtain ⟨size, hsize, hwidth⟩ := exists_registerAddressSize (hregister base (.inl hb))
    cases hi : m.index with
    | none => exact ⟨size, hsize⟩
    | some index =>
      obtain ⟨size', hsize', hwidth'⟩ := exists_registerAddressSize (hregister index (.inr hi))
      have hsame : size = size' := by
        have hwidths := hwidth.symm.trans ((hmixed base index hb hi).trans hwidth')
        cases size <;> cases size' <;> first | rfl | cases hwidths
      dsimp only
      rw [hsize, hsize', ok_bind, ok_bind, if_pos hsame]
      exact ⟨size, rfl⟩

/-! ## Registers of 16-bit addresses -/

theorem pairs16_of_registers16? {rm : Nat} (h : registers16? m.base m.index = some rm) :
    m.Pairs16 := by
  unfold Pairs16
  revert h
  generalize m.base = base
  generalize m.index = index
  unfold registers16?
  intro h
  split at h <;> cases h <;> decide

/-- Such registers have a number, unless there are none. -/
theorem exists_registers16? (h : m.Pairs16) (hsome : ¬(m.base = none ∧ m.index = none)) :
    ∃ rm, registers16? m.base m.index = some rm := by
  obtain ⟨base, hbase, index, hindex, h⟩ := h
  simp only [List.mem_cons, List.not_mem_nil, or_false] at hbase hindex
  rcases h with ⟨hb, hi⟩ | ⟨hb, hi⟩ <;> rw [hb, hi] at hsome ⊢ <;>
    rcases hbase with rfl | rfl | rfl <;> rcases hindex with rfl | rfl | rfl <;>
    first | exact absurd ⟨rfl, rfl⟩ hsome | exact ⟨_, rfl⟩

theorem sum_of_pairs16 (h : m.Pairs16) (hscale : m.index.isSome = true → m.scale = 1)
    (values : Register → Int) :
    (m.registerAmong [.bx, .bp]).elim 0 values +
        (m.registerAmong [.si, .di]).elim 0 values * (1 : Nat) =
      m.base.elim 0 values + m.index.elim 0 values * m.scale := by
  obtain ⟨base, hbase, index, hindex, h⟩ := h
  simp only [List.mem_cons, List.not_mem_nil, or_false] at hbase hindex
  rcases h with ⟨hb, hi⟩ | ⟨hb, hi⟩ <;> rw [hi] at hscale <;>
    rcases hbase with rfl | rfl | rfl <;> rcases hindex with rfl | rfl | rfl <;>
    simp [registerAmong, hb, hi] at hscale ⊢ <;> simp [hscale, Int.add_comm]

/-! ## Displacements -/

theorem holds_of_fitsByte {v : Int} (h : FitsByte v) (w : Width) : w.Holds v := by
  cases w <;> simp only [Width.Holds, Width.bits, FitsByte] at h ⊢ <;> omega

theorem exists_displacementField {w : Width} (mayOmit : Bool) (h : w.Holds disp.value) :
    ∃ field, displacementField w mayOmit disp = .ok field := by
  unfold displacementField
  split
  · exact ⟨_, rfl⟩
  split
  · exact ⟨_, rfl⟩
  · rw [Width.field_of_holds h]
    exact ⟨_, rfl⟩

/-- The short forms hold nothing that the full field does not hold. -/
theorem displacementField_of_not_holds {w : Width} {mayOmit : Bool} (h : ¬w.Holds disp.value) :
    displacementField w mayOmit disp = .error (.immediateOverflow disp.value w.bits) := by
  have hbyte : ¬FitsByte disp.value := fun hfits => h (holds_of_fitsByte hfits w)
  have hzero : disp.value ≠ 0 := fun heq => h (by rw [heq]; exact w.holds_zero)
  unfold displacementField
  rw [if_neg (by simp [hzero]), if_neg (by simp [Immediate.isShort, hbyte]),
    Width.field_of_not_holds h]
  rfl

/-! ## What becomes of an operand -/

/-- A 32-bit address is refused only for its displacement, unless the index is `esp`. -/
theorem addressing32_of_index (hindex : m.index ≠ some .esp) :
    (Width.dword.Holds disp.value → ∃ a, m.addressing32 disp reg = .ok a) ∧
      (¬Width.dword.Holds disp.value →
        m.addressing32 disp reg = .error (.immediateOverflow disp.value 32)) := by
  unfold addressing32
  rw [if_neg hindex]
  cases m.base with
  | none =>
    refine ⟨fun h => ?_, fun h => ?_⟩
    · have hfield := Width.field_of_holds h
      cases m.index <;> exact ⟨_, by rw [hfield]; rfl⟩
    · have hfield := Width.field_of_not_holds h
      cases m.index <;> simp only [hfield, error_bind] <;> rfl
  | some base =>
    refine ⟨fun h => ?_, fun h => ?_⟩
    · obtain ⟨field, hfield⟩ := exists_displacementField (base.code != 5) h
      dsimp only
      rw [hfield, ok_bind]
      split <;> exact ⟨_, rfl⟩
    · dsimp only
      rw [displacementField_of_not_holds h]
      rfl

/-- A 16-bit address is refused only for its displacement, if it has the registers that it can
have. -/
theorem addressing16_of_pairs16 (h : m.Pairs16) (hscale : m.index.isSome = true → m.scale = 1) :
    (Width.word.Holds disp.value → ∃ a, m.addressing16 disp reg = .ok a) ∧
      (¬Width.word.Holds disp.value →
        m.addressing16 disp reg = .error (.immediateOverflow disp.value 16)) := by
  unfold addressing16
  rw [if_neg fun hindex => hindex.2 (hscale hindex.1)]
  by_cases hnone : m.base = none ∧ m.index = none
  · rw [if_pos hnone]
    refine ⟨fun hholds => ⟨_, by rw [Width.field_of_holds hholds]; rfl⟩, fun hholds => ?_⟩
    rw [Width.field_of_not_holds hholds]
    rfl
  · obtain ⟨rm, hrm⟩ := exists_registers16? h hnone
    rw [if_neg hnone, hrm]
    refine ⟨fun hholds => ?_, fun hholds => ?_⟩
    · obtain ⟨field, hfield⟩ := exists_displacementField (rm != 6) hholds
      exact ⟨_, by dsimp only; rw [hfield]; rfl⟩
    · dsimp only
      rw [displacementField_of_not_holds hholds]
      rfl

theorem addressing16_of_not_pairs16 (h : ¬m.Pairs16) :
    ∃ text, m.addressing16 disp reg = .error (.unsupported text) := by
  have hsome : ¬(m.base = none ∧ m.index = none) := fun hnone =>
    h ⟨none, by simp, none, by simp, .inl hnone⟩
  have hregisters : registers16? m.base m.index = none := by
    by_contra hne
    obtain ⟨rm, hrm⟩ := Option.ne_none_iff_exists'.1 hne
    exact h (pairs16_of_registers16? hrm)
  unfold addressing16
  by_cases hscale : m.index.isSome = true ∧ m.scale ≠ 1
  · exact ⟨_, if_pos hscale⟩
  · rw [if_neg hscale, if_neg hsome, hregisters]
    exact ⟨_, rfl⟩

theorem unsupported_of_unaddressable (h : m.Unaddressable mode) (symbol : Option Int)
    (reg : Nat) : ∃ text, m.addressing mode symbol reg = .error (.unsupported text) := by
  unfold addressing
  by_cases hscale : m.index.isSome = true ∧ m.scale ∉ [1, 2, 4, 8]
  · exact ⟨_, if_pos hscale⟩
  rw [if_neg hscale]
  cases hsize : m.addressSize mode with
  | error err =>
    obtain ⟨text, rfl⟩ := unsupported_of_addressSize hsize
    exact ⟨text, rfl⟩
  | ok size =>
    rw [ok_bind]
    -- All registers have the width of the address, which leaves only what depends on its size.
    obtain ⟨-, hbase, hindex⟩ := addressSize_eq_ok hsize
    cases h with
    | @register r hr h =>
      obtain ⟨n, rfl⟩ := hr.elim (hbase r) (hindex r)
      cases size <;> rcases h with h | h <;> cases h
    | mixed hb hi h =>
      obtain ⟨n, rfl⟩ := hbase _ hb
      obtain ⟨n', rfl⟩ := hindex _ hi
      exact absurd rfl h
    | scale hi h => exact absurd ⟨hi, h⟩ hscale
    | esp h =>
      obtain ⟨n, hn⟩ := hindex _ h
      cases size with
      | bits16 => cases hn
      | bits32 => exact ⟨_, if_pos h⟩
    | scale16 hsize' hi h =>
      cases hsize.symm.trans hsize'
      exact ⟨_, if_pos ⟨hi, h⟩⟩
    | registers16 hsize' h =>
      cases hsize.symm.trans hsize'
      exact addressing16_of_not_pairs16 h

/-- Any other operand is refused only if the displacement does not fit a field of the size of the
address. -/
theorem addressing_of_addressable (h : ¬m.Unaddressable mode) (symbol : Option Int) (reg : Nat) :
    ∃ size, m.addressSize mode = .ok size ∧
      (size.width.Holds (m.displacementValue symbol).value →
        ∃ a, m.addressing mode symbol reg = .ok a) ∧
      (¬size.width.Holds (m.displacementValue symbol).value →
        m.addressing mode symbol reg =
          .error (.immediateOverflow (m.displacementValue symbol).value size.bits)) := by
  obtain ⟨size, hsize⟩ : ∃ size, m.addressSize mode = .ok size := by
    refine exists_addressSize (fun r hr hbad => h (.register hr hbad)) fun base index hb hi => ?_
    by_contra hne
    exact h (.mixed hb hi hne)
  refine ⟨size, hsize, ?_⟩
  unfold addressing
  rw [if_neg fun hscale => h (.scale hscale.1 hscale.2), hsize, ok_bind]
  -- Each reason that is left to refuse the operand is one of the conditions it is free of.
  cases size with
  | bits32 => exact addressing32_of_index fun hesp => h (.esp hesp)
  | bits16 =>
    refine addressing16_of_pairs16 ?_ fun hindex => ?_
    · by_contra hpairs
      exact h (.registers16 hsize hpairs)
    · by_contra hscale
      exact h (.scale16 hsize hindex hscale)

/-! ## Operands and their addressing bytes -/

/-- What is read back from the addressing bytes of an operand. -/
theorem takes_addressing (h : m.addressing mode symbol reg = .ok a) (hreg : reg < 8) :
    ∃ size, m.addressSize mode = .ok size ∧ (Addressing.read size).Takes a.bytes a ∧
      a.modrm.mod ≠ 3 ∧ a.modrm.reg = reg ∧
      ∀ values, a.effectiveAddress size values = m.effectiveAddress size symbol values := by
  have haddressable : ¬m.Unaddressable mode := fun hun => by
    obtain ⟨text, herror⟩ := unsupported_of_unaddressable hun symbol reg
    rw [h] at herror
    cases herror
  obtain ⟨hscale, size, hsize, h⟩ := addressing_eq_ok h
  obtain ⟨-, hbase, hindex⟩ := addressSize_eq_ok hsize
  refine ⟨size, hsize, ?_⟩
  -- In 32-bit addressing the parts are the operand's own; in 16-bit addressing they are sorted.
  cases size with
  | bits32 =>
    have hdenotes := addressing32_denotes h hreg hbase hindex hscale
    refine ⟨Addressing.read_bytes hdenotes.fits, hdenotes.isMemory, hdenotes.reg_eq,
      fun values => ?_⟩
    rw [hdenotes.effectiveAddress, effectiveAddress]
    cases m.index <;> simp
  | bits16 =>
    have hdenotes := addressing16_denotes h hreg
    refine ⟨Addressing.read_bytes hdenotes.fits, hdenotes.isMemory, hdenotes.reg_eq,
      fun values => ?_⟩
    rw [hdenotes.effectiveAddress, effectiveAddress, sum_of_pairs16]
    · by_contra hpairs
      exact haddressable (.registers16 hsize hpairs)
    · intro hsome
      by_contra hone
      exact haddressable (.scale16 hsize hsome hone)

theorem length_displacement_of_label (h : m.addressing mode symbol reg = .ok a)
    (hsize : m.addressSize mode = .ok size) (hlabel : m.labelRef?.isSome = true) :
    a.displacement.length = size.width.bytes := by
  -- The value of a label is symbolic, so no shorter field is tried for it.
  obtain ⟨v, hv⟩ : ∃ v, m.displacementValue symbol = { value := v, symbolic := true } := by
    unfold labelRef? at hlabel
    unfold displacementValue
    split at hlabel
    case h_1 hdisp => exact ⟨_, by rw [hdisp]⟩
    case h_2 => cases hlabel
  obtain ⟨-, size', hsize', h⟩ := addressing_eq_ok h
  cases hsize.symm.trans hsize'
  rw [hv] at h
  cases size with
  | bits32 =>
    obtain ⟨a', ha'⟩ := addressing32_zero h
    rw [addressing32_symbolic ha'] at h
    obtain ⟨field, hfield, hok⟩ := bind_eq_ok.1 h
    cases hok
    exact Width.length_field hfield
  | bits16 =>
    obtain ⟨a', ha'⟩ := addressing16_zero h
    rw [addressing16_symbolic ha'] at h
    obtain ⟨field, hfield, hok⟩ := bind_eq_ok.1 h
    cases hok
    exact Width.length_field hfield

/-- **An operand and its addressing bytes stand for one address.** -/
theorem addressing_effectiveAddress (m : Memory) (mode : Mode) (symbol : Option Int) {reg : Nat}
    (hreg : reg < 8) :
    (∀ a, m.addressing mode symbol reg = .ok a →
      ∃ size, m.addressSize mode = .ok size ∧
        (∀ rest, Addressing.read size (a.bytes ++ rest) = some (a, rest)) ∧
        a.modrm.mod ≠ 3 ∧ a.modrm.reg = reg ∧
        (∀ values, a.effectiveAddress size values = m.effectiveAddress size symbol values) ∧
        (m.labelRef?.isSome = true → a.displacement.length = size.width.bytes)) ∧
    ((∃ text, m.addressing mode symbol reg = .error (.unsupported text)) ↔ m.Unaddressable mode) ∧
    (¬m.Unaddressable mode → ∃ size, m.addressSize mode = .ok size ∧
      (m.addressing mode symbol reg =
          .error (.immediateOverflow (m.displacementValue symbol).value size.bits) ↔
        ¬(-2 ^ (size.bits - 1) ≤ (m.displacementValue symbol).value ∧
          (m.displacementValue symbol).value ≤ 2 ^ size.bits - 1)) ∧
      ((∃ a, m.addressing mode symbol reg = .ok a) ↔
        -2 ^ (size.bits - 1) ≤ (m.displacementValue symbol).value ∧
          (m.displacementValue symbol).value ≤ 2 ^ size.bits - 1)) := by
  have hrange (size : Mode) (v : Int) :
      size.width.Holds v ↔ -2 ^ (size.bits - 1) ≤ v ∧ v ≤ 2 ^ size.bits - 1 := by
    rw [Width.Holds, Mode.bits_width, Int.le_sub_one_iff]
  refine ⟨fun a h => ?_, ⟨fun ⟨text, herror⟩ => ?_, fun h => ?_⟩, fun h => ?_⟩
  · obtain ⟨size, hsize, htakes, hmod, hfield, haddress⟩ := takes_addressing h hreg
    exact ⟨size, hsize, htakes, hmod, hfield, haddress, length_displacement_of_label h hsize⟩
  -- An operand that can be addressed is refused for its displacement only.
  · by_contra hnot
    obtain ⟨size, -, hok, hoverflow⟩ := addressing_of_addressable hnot symbol reg
    by_cases hholds : size.width.Holds (m.displacementValue symbol).value
    · obtain ⟨a, ha⟩ := hok hholds
      rw [ha] at herror
      cases herror
    · rw [hoverflow hholds] at herror
      cases herror
  · exact unsupported_of_unaddressable h symbol reg
  · obtain ⟨size, hsize, hok, hoverflow⟩ := addressing_of_addressable h symbol reg
    refine ⟨size, hsize, ?_, ?_⟩ <;> rw [← hrange]
    · refine ⟨fun herror hholds => ?_, hoverflow⟩
      obtain ⟨a, ha⟩ := hok hholds
      rw [ha] at herror
      cases herror
    · refine ⟨fun ⟨a, ha⟩ => ?_, hok⟩
      by_contra hholds
      rw [hoverflow hholds] at ha
      cases ha

/-- The operand `[esp+ecx*8+label]`, with the label at the address where images are loaded. -/
theorem addressing_effectiveAddress_stack :
    let m : Memory := ((ofBase .dword .esp).withIndex .ecx 8).withLabel "table" 0
    ∃ a, m.addressing .bits32 (some 0x00100000) 3 = .ok a ∧
      a.bytes = [0x9C, 0xCC, 0, 0, 0x10, 0] ∧
      Addressing.read .bits32 (a.bytes ++ [0x90]) = some (a, [0x90]) ∧
      ∀ values, a.effectiveAddress .bits32 values =
        (values .esp + values .ecx * 8 + 0x00100000) % 2 ^ 32 := by
  intro m
  obtain ⟨size, hsize, hread, -, -, haddress, -⟩ :=
    (addressing_effectiveAddress m .bits32 (some 0x00100000) (show 3 < 8 by decide)).1 _ rfl
  cases hsize
  exact ⟨_, rfl, by decide, hread [0x90], haddress⟩

end Memory

end BootImage
