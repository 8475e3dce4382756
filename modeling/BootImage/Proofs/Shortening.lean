import BootImage.Proofs.Branches
import BootImage.Proofs.Places

/-!
# Shortening jumps

When jumps become short, no entry of the stream moves back: every entry starts and ends at most as
far into the image as before. An `align` directive may take more bytes or fewer than before, and an
`offset` directive takes the more the earlier it stands, but neither ends later. So a stream that
can be laid out can also be laid out with more of its jumps short.

* `Shortens` — one choice of forms arises from another by shortening jumps of the stream.
* `Place.NoLater` — what a shortening does to the place of an entry.
* `add_padding_mono` — padding keeps the order of offsets.
* `compute_shortens` — a shortening lays out, and puts every entry no later.
-/

namespace BootImage

/-! ## Choices of forms -/

/-- What may happen to the form of an entry: a jump may become short. -/
def Entry.MayShorten (e : Entry) (form form' : BranchForm) : Prop :=
  form' = form ∨ form = .near ∧ form' = .short ∧ e.isShrinkable = true

/-- `forms'` arises from `forms` by putting some jumps of the stream into short form. -/
inductive Shortens : Code → List BranchForm → List BranchForm → Prop
  | nil : Shortens [] [] []
  | cons {e : Entry} {form form' : BranchForm} {code : Code} {forms forms' : List BranchForm} :
      e.MayShorten form form' → Shortens code forms forms' →
      Shortens (e :: code) (form :: forms) (form' :: forms')

/-- The forms with every branch near. -/
def Code.allNear (code : Code) : List BranchForm :=
  code.map fun _ => .near

theorem Entry.MayShorten.trans {e : Entry} {form form' form'' : BranchForm}
    (h : e.MayShorten form form') (h' : e.MayShorten form' form'') : e.MayShorten form form'' := by
  rcases h with rfl | ⟨rfl, rfl, hshrinkable⟩
  · exact h'
  · rcases h' with rfl | ⟨hnear, -, -⟩
    · exact .inr ⟨rfl, rfl, hshrinkable⟩
    · cases hnear

namespace Shortens

variable {code : Code} {forms forms' forms'' : List BranchForm}

theorem refl (h : forms.length = code.length) : Shortens code forms forms := by
  induction code generalizing forms with
  | nil =>
    obtain rfl := List.eq_nil_of_length_eq_zero h
    exact .nil
  | cons e code ih =>
    cases forms with
    | nil => simp at h
    | cons form forms => exact .cons (.inl rfl) (ih (by simpa using h))

theorem trans (h : Shortens code forms forms') (h' : Shortens code forms' forms'') :
    Shortens code forms forms'' := by
  induction h generalizing forms'' with
  | nil => exact h'
  | cons hform _ ih =>
    cases h' with
    | cons hform' h' => exact .cons (hform.trans hform') (ih h')

theorem length_left (h : Shortens code forms forms') : forms.length = code.length := by
  induction h with
  | nil => rfl
  | cons _ _ ih => simp [ih]

theorem length_right (h : Shortens code forms forms') : forms'.length = code.length := by
  induction h with
  | nil => rfl
  | cons _ _ ih => simp [ih]

/-- Putting one near jump into short form. -/
theorem set (hlength : forms.length = code.length) {i : Nat} {e : Entry} (he : code[i]? = some e)
    (hshrinkable : e.isShrinkable = true) (hnear : forms[i]? = some .near) :
    Shortens code forms (forms.set i .short) := by
  induction code generalizing forms i with
  | nil => simp at he
  | cons e' code ih =>
    cases forms with
    | nil => simp at hlength
    | cons form forms =>
      cases i with
      | zero =>
        obtain rfl : e' = e := by simpa using he
        obtain rfl : form = .near := by simpa using hnear
        exact .cons (.inr ⟨rfl, rfl, hshrinkable⟩) (refl (by simpa using hlength))
      | succ i =>
        exact .cons (.inl rfl)
          (ih (by simpa using hlength) (by simpa using he) (by simpa using hnear))

theorem getElem? (h : Shortens code forms forms') {i : Nat} {e : Entry} {form form' : BranchForm}
    (he : code[i]? = some e) (hform : forms[i]? = some form)
    (hform' : forms'[i]? = some form') : e.MayShorten form form' := by
  induction h generalizing i with
  | nil => simp at he
  | cons hmay _ ih =>
    cases i with
    | zero =>
      cases he
      cases hform
      cases hform'
      exact hmay
    | succ i => exact ih he hform hform'

theorem getElem?_allNear {i : Nat} {e : Entry} (he : code[i]? = some e) :
    code.allNear[i]? = some .near := by
  rw [Code.allNear, List.getElem?_map, he]
  rfl

/-- Only jumps are short in a shortening of the all-near forms. -/
theorem isShrinkable_of_short (h : Shortens code code.allNear forms) {i : Nat} {e : Entry}
    (he : code[i]? = some e) (hshort : forms[i]? = some .short) : e.isShrinkable = true := by
  rcases h.getElem? he (getElem?_allNear he) hshort with hnear | ⟨-, -, hshrinkable⟩
  · cases hnear
  · exact hshrinkable

/-! ## The number of short jumps -/

theorem count_cons (form : BranchForm) (forms : List BranchForm) :
    (form :: forms).count .short = forms.count .short + if form = .short then 1 else 0 := by
  cases form <;> simp

@[simp] theorem count_allNear (code : Code) : code.allNear.count .short = 0 := by
  simp [Code.allNear, List.count_eq_zero]

@[simp] theorem length_allNear (code : Code) : code.allNear.length = code.length := by
  simp [Code.allNear]

/-- A stream has no more jumps to shorten than it has jumps. -/
theorem count_le_shrinkable (h : Shortens code forms forms') :
    forms'.count .short ≤ forms.count .short + (code.filter Entry.isShrinkable).length := by
  induction h with
  | nil => exact Nat.zero_le _
  | @cons e _ _ code _ _ hform _ ih =>
    have hmono := ((List.sublist_cons_self e code).filter Entry.isShrinkable).length_le
    rw [count_cons, count_cons]
    rcases hform with rfl | ⟨rfl, rfl, hshrinkable⟩
    · omega
    · rw [List.filter_cons_of_pos hshrinkable]
      simp
      omega

end Shortens

/-! ## Padding -/

namespace Cursor

theorem dvd_add_padding (offset : Nat) {boundary : Nat} (h : 0 < boundary) :
    boundary ∣ offset + padding offset boundary := by
  have hmod := Nat.mod_lt offset h
  rw [padding, Nat.dvd_iff_mod_eq_zero, Nat.add_mod_mod]
  have hsplit : offset + (boundary - offset % boundary) =
      boundary * (offset / boundary + 1) := by
    have := Nat.div_add_mod offset boundary
    rw [Nat.mul_add]
    omega
  rw [hsplit, Nat.mul_mod_right]

/-- Padding goes to the first multiple of the boundary. -/
theorem add_padding_le {offset boundary multiple : Nat} (h : 0 < boundary)
    (hle : offset ≤ multiple) (hdvd : boundary ∣ multiple) :
    offset + padding offset boundary ≤ multiple := by
  have hlt : padding offset boundary < boundary := Nat.mod_lt _ h
  obtain ⟨k, hk⟩ := dvd_add_padding offset h
  obtain ⟨m, rfl⟩ := hdvd
  -- A multiple below the padded offset would be below the offset itself.
  by_contra hgt
  have hmk : m < k := Nat.lt_of_mul_lt_mul_left (a := boundary) (by omega)
  have : boundary * (m + 1) ≤ boundary * k := Nat.mul_le_mul_left _ hmk
  rw [Nat.mul_add] at this
  omega

theorem add_padding_mono {offset offset' boundary : Nat} (h : 0 < boundary)
    (hle : offset' ≤ offset) :
    offset' + padding offset' boundary ≤ offset + padding offset boundary :=
  add_padding_le h (by omega) (dvd_add_padding offset h)

/-! ## One entry -/

variable {c c' : Cursor} {e : Entry} {form form' : BranchForm} {n : Nat}

theorem size_instruction (c : Cursor) (i : Instruction) (form : BranchForm) :
    c.size (.instruction i) form = i.length c.mode form := rfl

theorem boundary_pos {boundary : UInt32} (h : boundary ≠ 0) : 0 < boundary.toNat := by
  rw [Nat.pos_iff_ne_zero]
  exact fun hzero => h (UInt32.toNat_inj.1 hzero)

theorem size_align_eq_ok {boundary : UInt32} : c.size (.align boundary) form = .ok n ↔
    boundary ≠ 0 ∧ n = padding c.offset boundary.toNat := by
  by_cases h : boundary = 0 <;> simp [size, h, eq_comm]

theorem size_offset_eq_ok {target : UInt32} : c.size (.offset target) form = .ok n ↔
    c.offset ≤ target.toNat ∧ c.offset + n = target.toNat := by
  by_cases h : target.toNat < c.offset
  · simp [size, h]
  · simp only [size, h, if_false, Except.ok.injEq]
    omega

theorem size_noLater_of_eq (hoffset : c'.offset ≤ c.offset) (hmode : c'.mode = c.mode)
    (h : c.size e form = .ok n) :
    ∃ n', c'.size e form = .ok n' ∧ c'.offset + n' ≤ c.offset + n := by
  cases e with
  | offset target =>
    rw [size_offset_eq_ok] at h
    exact ⟨target.toNat - c'.offset, size_offset_eq_ok.2 (by omega), by omega⟩
  | align boundary =>
    obtain ⟨hne, rfl⟩ := size_align_eq_ok.1 h
    exact ⟨_, size_align_eq_ok.2 ⟨hne, rfl⟩, add_padding_mono (boundary_pos hne) hoffset⟩
  | _ =>
    refine ⟨n, ?_, by omega⟩
    rw [← h]
    simp only [size, hmode]

/-- An entry that is read earlier, or with its jump shortened, ends no later. -/
theorem size_noLater (hoffset : c'.offset ≤ c.offset) (hmode : c'.mode = c.mode)
    (hform : e.MayShorten form form') (h : c.size e form = .ok n) :
    ∃ n', c'.size e form' = .ok n' ∧ c'.offset + n' ≤ c.offset + n := by
  rcases hform with rfl | ⟨rfl, rfl, hshrinkable⟩
  · exact size_noLater_of_eq hoffset hmode h
  · cases e with
    | instruction i =>
      obtain ⟨name, hname⟩ := Instruction.branchTarget?_of_isShrinkable hshrinkable
      have hjump := Instruction.isJump_of_isShrinkable hshrinkable
      rw [size_instruction, Instruction.length_branch hname] at h
      cases h
      have := i.two_lt_branchLength_near c.mode
      refine ⟨2, ?_, by omega⟩
      rw [size_instruction, Instruction.length_branch hname, Instruction.branchLength_short hjump]
    | _ => cases hshrinkable

end Cursor

/-! ## Whole layouts -/

/-- `q` is the place of the entry of `p` once jumps have been shortened. -/
structure Place.NoLater (q p : Place) : Prop where
  entry : q.entry = p.entry
  origin : q.origin = p.origin
  mode : q.mode = p.mode
  form : p.entry.MayShorten p.form q.form
  offset_le : q.offset ≤ p.offset
  stop_le : q.stop ≤ p.stop

theorem Place.NoLater.address_le {q p : Place} (h : q.NoLater p) : q.address ≤ p.address := by
  have := h.offset_le
  simp only [Place.address, h.origin]
  omega

namespace Layout

variable {code : Code} {forms forms' : List BranchForm} {layout : Layout}

theorem layFrom_shortens (hforms : Shortens code forms forms') {c c' : Cursor}
    (hoffset : c'.offset ≤ c.offset) (horigin : c'.origin = c.origin) (hmode : c'.mode = c.mode)
    (h : layFrom c code forms = .ok layout) :
    ∃ layout', layFrom c' code forms' = .ok layout' ∧
      List.Forall₂ Place.NoLater layout'.places layout.places := by
  induction hforms generalizing c c' layout with
  | nil =>
    cases h
    exact ⟨_, rfl, .nil⟩
  | @cons e _ _ _ _ _ hform _ ih =>
    obtain ⟨size, rest, hsize, hrest, rfl⟩ := layFrom_cons_eq_ok.1 h
    obtain ⟨size', hsize', hstop⟩ := Cursor.size_noLater hoffset hmode hform hsize
    have hpast : (c'.past e size').offset ≤ (c.past e size).offset := hstop
    obtain ⟨rest', hrest', hplaces⟩ :=
      ih hpast (congrArg e.originAfter horigin) (congrArg e.modeAfter hmode) hrest
    refine ⟨_, layFrom_cons_eq_ok.2 ⟨size', rest', hsize', hrest', rfl⟩, .cons ?_ hplaces⟩
    exact ⟨rfl, horigin, congrArg e.modeAfter hmode, hform, hoffset, hstop⟩

/-- **A shortening lays out**, and puts every entry no later. -/
theorem compute_shortens (hforms : Shortens code forms forms')
    (h : compute code forms = .ok layout) :
    ∃ layout', compute code forms' = .ok layout' ∧
      List.Forall₂ Place.NoLater layout'.places layout.places :=
  layFrom_shortens hforms le_rfl rfl rfl h

end Layout

end BootImage
