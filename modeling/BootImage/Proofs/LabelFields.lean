import BootImage.Encoding.Instruction
import BootImage.Proofs.Checked

/-!
# Fields for labels

An instruction is sized before any label is resolved, and encoded once all are. In between only
the fields for its labels change: the displacement of a memory operand with a label, and the
immediate field of a label that stands for its address. Both are written last, and their widths
do not depend on the values.

* `Encoding.fill` — an encoding with the fields for its labels written.
* `Fills` — an encoding with its labels resolved is the one without, filled.
* `onMemory_fills`, `withImmediate_fills_label` — the two steps that write such a field.
-/

namespace BootImage

/-! ## Writing the fields -/

/-- Whether a field of width `w` holds `v`, as a signed or as an unsigned number. -/
def Width.Holds (w : Width) (v : Int) : Prop :=
  -2 ^ (w.bits - 1) ≤ v ∧ v < 2 ^ w.bits

instance (w : Width) (v : Int) : Decidable (w.Holds v) :=
  inferInstanceAs (Decidable (_ ∧ _))

theorem Width.field_of_holds {w : Width} {v : Int} (h : w.Holds v) :
    w.field v = .ok (LittleEndian.ofInt w.bytes v) :=
  if_pos h

theorem Width.field_of_not_holds {w : Width} {v : Int} (h : ¬w.Holds v) :
    w.field v = .error (.immediateOverflow v w.bits) :=
  if_neg h

theorem Width.holds_zero (w : Width) : w.Holds 0 := by
  cases w <;> decide

namespace Encoding

/-- The same encoding with a displacement field for `v`. -/
def withDisplacement (e : Encoding) (w : Width) (v : Int) : Except AssemblyError Encoding := do
  let field ← w.field v
  pure { e with addressing := e.addressing.map fun a => { a with displacement := field } }

/-- The same encoding with the fields for its labels written: a displacement for `symbol` and an
immediate for `value`. -/
def fill (e : Encoding) (symbol value : Option (Width × Int)) : Except AssemblyError Encoding := do
  let e ← symbol.elim (pure e) fun (w, v) => e.withDisplacement w v
  value.elim (pure e) fun (w, v) => e.withImmediate w v

@[simp] theorem fill_none (e : Encoding) : e.fill none none = .ok e := rfl

/-- The encoding that `fill` gives if the fields hold their numbers. -/
def filled (e : Encoding) (symbol value : Option (Width × Int)) : Encoding :=
  { e with
    addressing := symbol.elim e.addressing fun (w, v) =>
      e.addressing.map fun a => { a with displacement := LittleEndian.ofInt w.bytes v }
    immediate := value.elim e.immediate fun (w, v) => LittleEndian.ofInt w.bytes v }

theorem fill_of_holds (e : Encoding) {symbol value : Option (Width × Int)}
    (hsymbol : ∀ s ∈ symbol, s.1.Holds s.2) (hvalue : ∀ s ∈ value, s.1.Holds s.2) :
    e.fill symbol value = .ok (e.filled symbol value) := by
  cases symbol with
  | none =>
    cases value with
    | none => rfl
    | some value =>
      simp [fill, filled, withImmediate, Width.field_of_holds (hvalue value rfl), pure, Except.pure]
  | some symbol =>
    have hfield := Width.field_of_holds (hsymbol symbol rfl)
    cases value with
    | none => simp [fill, filled, withDisplacement, hfield, pure, Except.pure]
    | some value =>
      simp [fill, filled, withDisplacement, withImmediate, hfield,
        Width.field_of_holds (hvalue value rfl), pure, Except.pure]

theorem fill_of_not_holds (e : Encoding) {symbol value : Option (Width × Int)} {s : Width × Int}
    (hs : s ∈ symbol ∨ s ∈ value) (hholds : ¬s.1.Holds s.2) :
    ∃ v bits, e.fill symbol value = .error (.immediateOverflow v bits) := by
  have hvalue (hs : s ∈ value) (e : Encoding) :
      e.fill none value = .error (.immediateOverflow s.2 s.1.bits) := by
    cases hs
    simp [fill, withImmediate, Width.field_of_not_holds hholds]
  cases symbol with
  | none =>
    rcases hs with hs | hs
    · cases hs
    · exact ⟨_, _, hvalue hs e⟩
  | some symbol =>
    -- The displacement is filled first, so its error hides that of the immediate field.
    by_cases hsymbol : symbol.1.Holds symbol.2
    · have hs' : s ∈ value := by
        rcases hs with hs | hs
        · cases hs
          exact absurd hsymbol hholds
        · exact hs
      refine ⟨s.2, s.1.bits, ?_⟩
      rw [← hvalue hs' (e.filled (some symbol) none)]
      simp [fill, filled, withDisplacement, Width.field_of_holds hsymbol, pure, Except.pure]
    · refine ⟨symbol.2, symbol.1.bits, ?_⟩
      simp [fill, withDisplacement, Width.field_of_not_holds hsymbol]

theorem error_of_fill {e : Encoding} {symbol value : Option (Width × Int)} {err : AssemblyError}
    (h : e.fill symbol value = .error err) : ∃ v bits, err = .immediateOverflow v bits := by
  by_cases hholds : ∀ s, s ∈ symbol ∨ s ∈ value → s.1.Holds s.2
  · rw [e.fill_of_holds (fun s hs => hholds s (.inl hs)) fun s hs => hholds s (.inr hs)] at h
    cases h
  · simp only [not_forall] at hholds
    obtain ⟨s, hs, hnot⟩ := hholds
    obtain ⟨v, bits, herror⟩ := e.fill_of_not_holds hs hnot
    rw [h] at herror
    cases herror
    exact ⟨v, bits, rfl⟩

theorem fill_eq_ok {e e' : Encoding} {symbol value : Option (Width × Int)} :
    e.fill symbol value = .ok e' ↔
      (∀ s ∈ symbol, s.1.Holds s.2) ∧ (∀ s ∈ value, s.1.Holds s.2) ∧
        e' = e.filled symbol value := by
  constructor
  · intro h
    have hholds (s : Width × Int) (hs : s ∈ symbol ∨ s ∈ value) : s.1.Holds s.2 := by
      by_contra hnot
      obtain ⟨v, bits, herror⟩ := e.fill_of_not_holds hs hnot
      rw [h] at herror
      cases herror
    have hsymbol := fun s hs => hholds s (.inl hs)
    have hvalue := fun s hs => hholds s (.inr hs)
    rw [e.fill_of_holds hsymbol hvalue] at h
    cases h
    exact ⟨hsymbol, hvalue, rfl⟩
  · rintro ⟨hsymbol, hvalue, rfl⟩
    exact e.fill_of_holds hsymbol hvalue

end Encoding

/-- The width of the address that a memory operand computes. -/
def Memory.addressWidth (m : Memory) (mode : Mode) : Width :=
  match m.addressSize mode with
  | .ok size => size.width
  | .error _ => mode.width

/-- The field for the label of a memory operand. -/
def Memory.symbolField? (m : Memory) (cx : Context) : Option (Width × Int) :=
  m.labelRef?.map fun _ => (m.addressWidth cx.mode, cx.symbol.getD 0)

namespace Instruction

/-- The field for the label in the memory operand. -/
def symbolField? (i : Instruction) (cx : Context) : Option (Width × Int) :=
  i.memory?.bind (·.symbolField? cx)

/-- The width of the number that a label operand stands for: that of the operand it is put
into, and that of the mode where it is pushed. -/
def labelWidth (i : Instruction) (mode : Mode) : Width :=
  match i.operands with
  | .register r :: _ => r.width
  | .memory m :: _ => m.size.width?.getD mode.width
  | _ => mode.width

/-- The field for a label that stands for its address. -/
def valueField? (i : Instruction) (cx : Context) : Option (Width × Int) :=
  i.absoluteLabel?.map fun _ => (i.labelWidth cx.mode, cx.target.getD 0)

end Instruction

/-- `resolved` is the encoding `sized` with the fields for its labels written, if that is one. -/
structure Fills (symbol value : Option (Width × Int))
    (sized resolved : Except AssemblyError Encoding) : Prop where
  eq_fill : ∀ {e}, sized = .ok e → resolved = e.fill symbol value
  addressed : ∀ {e}, sized = .ok e → symbol.isSome = true → e.addressing.isSome = true
  sized_ok : ∀ {e}, resolved = .ok e → ∃ e', sized = .ok e'

/-- Resolving its labels fills the encoding of an instruction that `encode` gives, which was sized
with a branch in the given form. -/
abbrev FillsLabels (i : Instruction) (cx : Context) (form : BranchForm)
    (encode : Context → Except AssemblyError Encoding) : Prop :=
  Fills (i.symbolField? cx) (i.valueField? cx) (encode (.sizing cx.mode form)) (encode cx)

namespace Fills

variable {α : Type} {symbol value : Option (Width × Int)}
  {sized resolved : Except AssemblyError Encoding}

theorem error {err err' : AssemblyError} : Fills symbol value (.error err) (.error err') where
  eq_fill h := by cases h
  addressed h := by cases h
  sized_ok h := by cases h

/-- Without labels nothing changes. -/
theorem refl : Fills none none resolved resolved where
  eq_fill h := h
  addressed _ h := by cases h
  sized_ok h := ⟨_, h⟩

theorem bind {step : Except AssemblyError α} {f g : α → Except AssemblyError Encoding}
    (h : ∀ a, step = .ok a → Fills symbol value (f a) (g a)) :
    Fills symbol value (step >>= f) (step >>= g) := by
  cases step with
  | error err => exact .error
  | ok a => exact h a rfl

theorem ite {p : Prop} [Decidable p] {sized' resolved' : Except AssemblyError Encoding}
    (h : p → Fills symbol value sized resolved)
    (h' : ¬p → Fills symbol value sized' resolved') :
    Fills symbol value (if p then sized else sized') (if p then resolved else resolved') := by
  by_cases hp : p
  · simpa only [if_pos hp] using h hp
  · simpa only [if_neg hp] using h' hp

end Fills

/-! ## Addressing bytes -/

theorem displacementField_symbolic (size : Width) (mayOmit : Bool) (v : Int) :
    displacementField size mayOmit { value := v, symbolic := true } = (do
      let field ← size.field v
      pure (2, field)) := by
  simp [displacementField, Immediate.isShort]

namespace Memory

variable {m : Memory} {mode : Mode} {reg : Nat} {a : Addressing}

theorem addressing32_symbolic (h : m.addressing32 { value := 0, symbolic := true } reg = .ok a)
    (v : Int) : m.addressing32 { value := v, symbolic := true } reg = (do
      let field ← Width.dword.field v
      pure { a with displacement := field }) := by
  simp only [addressing32, displacementField_symbolic, Width.field_of_holds (Width.holds_zero _)]
    at h ⊢
  split at h
  case isTrue => cases h
  rename_i hindex
  rw [if_neg hindex]
  cases hbase : m.base with
  | none =>
    rw [hbase] at h
    cases hindex' : m.index <;> rw [hindex'] at h <;> cases h <;> rfl
  | some base =>
    rw [hbase] at h
    simp only [ok_bind, pure, Except.pure] at h ⊢
    -- The bytes in front of the displacement do not depend on its value.
    by_cases hsib : (m.index.isSome || base.code == 4) = true
    · rw [if_pos hsib] at h
      cases h
      simp only [if_pos hsib]
      cases Width.dword.field v <;> rfl
    · rw [if_neg hsib] at h
      cases h
      simp only [if_neg hsib]
      cases Width.dword.field v <;> rfl

theorem addressing16_symbolic (h : m.addressing16 { value := 0, symbolic := true } reg = .ok a)
    (v : Int) : m.addressing16 { value := v, symbolic := true } reg = (do
      let field ← Width.word.field v
      pure { a with displacement := field }) := by
  simp only [addressing16, displacementField_symbolic, Width.field_of_holds (Width.holds_zero _)]
    at h ⊢
  split at h
  case isTrue => cases h
  rename_i hscale
  rw [if_neg hscale]
  split at h
  case isTrue hnone =>
    rw [if_pos hnone]
    cases h
    rfl
  case isFalse hsome =>
    rw [if_neg hsome]
    cases hregisters : registers16? m.base m.index with
    | none =>
      rw [hregisters] at h
      cases h
    | some rm =>
      rw [hregisters] at h
      cases h
      cases Width.word.field v <;> rfl

/-- A label at any address has an encoding only if it has one at address zero. -/
theorem addressing32_zero {v : Int}
    (h : m.addressing32 { value := v, symbolic := true } reg = .ok a) :
    ∃ a', m.addressing32 { value := 0, symbolic := true } reg = .ok a' := by
  simp only [addressing32, displacementField_symbolic, Width.field_of_holds (Width.holds_zero _)]
    at h ⊢
  split at h
  case isTrue => cases h
  rename_i hindex
  rw [if_neg hindex]
  cases m.base with
  | none => cases m.index <;> exact ⟨_, rfl⟩
  | some base =>
    dsimp only [ok_bind]
    split <;> exact ⟨_, rfl⟩

theorem addressing16_zero {v : Int}
    (h : m.addressing16 { value := v, symbolic := true } reg = .ok a) :
    ∃ a', m.addressing16 { value := 0, symbolic := true } reg = .ok a' := by
  simp only [addressing16, displacementField_symbolic, Width.field_of_holds (Width.holds_zero _)]
    at h ⊢
  split at h
  case isTrue => cases h
  rename_i hscale
  rw [if_neg hscale]
  split at h
  case isTrue hnone => exact ⟨_, if_pos hnone⟩
  case isFalse hsome =>
    rw [if_neg hsome]
    cases hregisters : registers16? m.base m.index with
    | none =>
      rw [hregisters] at h
      cases h
    | some rm => exact ⟨_, rfl⟩

/-- A memory operand that is encoded with its label resolved can be sized without. -/
theorem addressing_sizes {symbol : Option Int} (h : m.addressing mode symbol reg = .ok a) :
    ∃ a', m.addressing mode none reg = .ok a' := by
  unfold addressing at h ⊢
  split at h
  case isTrue => cases h
  rename_i hscale
  rw [if_neg hscale]
  obtain ⟨size, hsize, h⟩ := bind_eq_ok.1 h
  rw [hsize, ok_bind]
  cases hdisp : m.displacement with
  | literal v =>
    simp only [displacementValue, hdisp] at h ⊢
    exact ⟨a, h⟩
  | label name delta =>
    simp only [displacementValue, hdisp] at h ⊢
    cases size with
    | bits32 => exact addressing32_zero h
    | bits16 => exact addressing16_zero h

/-- The value of a label goes to the displacement, and changes nothing else. -/
theorem addressing_resolves (h : m.addressing mode none reg = .ok a) (symbol : Option Int) :
    m.addressing mode symbol reg = m.labelRef?.elim (.ok a) fun _ => (do
      let field ← (m.addressWidth mode).field (symbol.getD 0)
      pure { a with displacement := field }) := by
  unfold addressing at h ⊢
  split at h
  case isTrue => cases h
  rename_i hscale
  rw [if_neg hscale]
  obtain ⟨size, hsize, h⟩ := bind_eq_ok.1 h
  rw [addressWidth, hsize, ok_bind]
  cases hdisp : m.displacement with
  | literal v =>
    simp only [labelRef?, displacementValue, hdisp] at h ⊢
    exact h
  | label name delta =>
    simp only [labelRef?, displacementValue, hdisp] at h ⊢
    cases size with
    | bits32 => exact addressing32_symbolic h _
    | bits16 => exact addressing16_symbolic h _

end Memory

/-! ## Shared forms -/

namespace Encoding

variable {cx : Context} {form : BranchForm} {symbol : Option (Width × Int)}
  {sized resolved : Except AssemblyError Encoding}

theorem onMemory_fills (width : Option Width) (opcode : Opcode) (reg : Nat) (m : Memory) :
    Fills (m.symbolField? cx) none (onMemory (.sizing cx.mode form) width opcode reg m)
      (onMemory cx width opcode reg m) := by
  refine .bind fun segment _ => .bind fun size hsize => ?_
  constructor
  · intro e h
    obtain ⟨a, ha, he⟩ := bind_eq_ok.1 h
    cases he
    have hresolved := Memory.addressing_resolves ha cx.symbol
    simp only [Context.sizing] at hresolved
    rw [hresolved, Memory.symbolField?]
    cases m.labelRef? with
    | none => rfl
    | some ref =>
      simp only [fill, Option.map_some, Option.elim, withDisplacement]
      cases (m.addressWidth cx.mode).field (cx.symbol.getD 0) <;> rfl
  · intro e h _
    obtain ⟨a, -, he⟩ := bind_eq_ok.1 h
    cases he
    rfl
  · intro e h
    obtain ⟨a, ha, -⟩ := bind_eq_ok.1 h
    obtain ⟨a', ha'⟩ := Memory.addressing_sizes ha
    exact ⟨_, bind_eq_ok.2 ⟨a', ha', rfl⟩⟩

theorem withImmediate_eq_ok {e e' : Encoding} {w : Width} {v : Int} :
    e.withImmediate w v = .ok e' ↔
      ∃ field, w.field v = .ok field ∧ { e with immediate := field } = e' := by
  simp only [withImmediate, bind_eq_ok, pure, Except.pure, Except.ok.injEq]

/-- A literal in the immediate field stays. -/
theorem withImmediate_fills (h : Fills symbol none sized resolved) (w : Width) (v : Int) :
    Fills symbol none (sized >>= (withImmediate · w v)) (resolved >>= (withImmediate · w v)) := by
  constructor
  · intro e he
    obtain ⟨e₀, he₀, he⟩ := bind_eq_ok.1 he
    obtain ⟨field, hfield, rfl⟩ := withImmediate_eq_ok.1 he
    rw [h.eq_fill he₀]
    cases symbol with
    | none => simp [withImmediate, hfield, pure, Except.pure]
    | some symbol =>
      obtain ⟨w', v'⟩ := symbol
      simp only [fill, Option.elim, withDisplacement, withImmediate, hfield]
      cases w'.field v' <;> rfl
  · intro e he hsymbol
    obtain ⟨e₀, he₀, he⟩ := bind_eq_ok.1 he
    obtain ⟨field, -, rfl⟩ := withImmediate_eq_ok.1 he
    exact h.addressed (e := e₀) he₀ hsymbol
  · intro e he
    obtain ⟨e₀, he₀, he⟩ := bind_eq_ok.1 he
    obtain ⟨field, hfield, rfl⟩ := withImmediate_eq_ok.1 he
    obtain ⟨e', he'⟩ := h.sized_ok he₀
    exact ⟨_, bind_eq_ok.2 ⟨e', he', withImmediate_eq_ok.2 ⟨field, hfield, rfl⟩⟩⟩

/-- The value of a label goes to the immediate field. -/
theorem withImmediate_fills_label (h : Fills symbol none sized resolved) (w : Width) (v : Int) :
    Fills symbol (some (w, v)) (sized >>= (withImmediate · w 0))
      (resolved >>= (withImmediate · w v)) := by
  constructor
  · intro e he
    obtain ⟨e₀, he₀, he⟩ := bind_eq_ok.1 he
    obtain ⟨field, -, rfl⟩ := withImmediate_eq_ok.1 he
    rw [h.eq_fill he₀]
    cases symbol with
    | none => rfl
    | some symbol =>
      obtain ⟨w', v'⟩ := symbol
      simp only [fill, Option.elim, withDisplacement, withImmediate]
      cases w'.field v' <;> rfl
  · intro e he hsymbol
    obtain ⟨e₀, he₀, he⟩ := bind_eq_ok.1 he
    obtain ⟨field, -, rfl⟩ := withImmediate_eq_ok.1 he
    exact h.addressed (e := e₀) he₀ hsymbol
  · intro e he
    obtain ⟨e₀, he₀, -⟩ := bind_eq_ok.1 he
    obtain ⟨e', he'⟩ := h.sized_ok he₀
    have hfield := Width.field_of_holds w.holds_zero
    exact ⟨_, bind_eq_ok.2 ⟨e', he', withImmediate_eq_ok.2 ⟨_, hfield, rfl⟩⟩⟩

theorem withImmediate_fills_value (e : Encoding) (w : Width) (v : Int) :
    Fills none (some (w, v)) (e.withImmediate w 0) (e.withImmediate w v) :=
  withImmediate_fills_label (.refl : Fills none none (.ok e) (.ok e)) w v

/-! ## Operands -/

theorem generalWidth_eq_ok {i : Instruction} {r : Register} {w : Width} :
    i.generalWidth r = .ok w ↔ r.isSegment = false ∧ r.width = w := by
  unfold Instruction.generalWidth
  cases r.isSegment <;> simp

theorem memoryWidth_eq_ok {i : Instruction} {m : Memory} {w : Width} :
    i.memoryWidth m = .ok w ↔ m.size.width? = some w := by
  unfold Instruction.memoryWidth
  cases m.size.width? <;> simp

/-- A label that goes into a register is as wide as that. -/
theorem valueField?_register {mnemonic : Mnemonic} (h : mnemonic.isBranch = false) (r : Register)
    (name : String) (cx : Context) :
    Instruction.valueField? ⟨mnemonic, [.register r, .label name]⟩ cx =
      some (r.width, cx.target.getD 0) := by
  rw [Instruction.valueField?, Instruction.absoluteLabel?, if_neg (by simp [h])]
  rfl

/-- A label that goes into memory is as wide as the access. -/
theorem valueField?_memory {mnemonic : Mnemonic} (h : mnemonic.isBranch = false) {m : Memory}
    {w : Width} (hw : m.size.width? = some w) (name : String) (cx : Context) :
    Instruction.valueField? ⟨mnemonic, [.memory m, .label name]⟩ cx =
      some (w, cx.target.getD 0) := by
  have hwidth : Instruction.labelWidth ⟨mnemonic, [.memory m, .label name]⟩ cx.mode = w := by
    simp [Instruction.labelWidth, hw]
  rw [Instruction.valueField?, Instruction.absoluteLabel?, if_neg (by simp [h]), hwidth]
  rfl

theorem valueField?_eq_none {mnemonic : Mnemonic} {operands : List Operand}
    (h : operands.findSome? Operand.label? = none) (cx : Context) :
    Instruction.valueField? ⟨mnemonic, operands⟩ cx = none := by
  rw [Instruction.valueField?, Instruction.absoluteLabel?, h, ite_self, Option.map_none]

end Encoding

end BootImage
