import BootImage.Proofs.Directives
import BootImage.Proofs.Linked
import BootImage.Proofs.Sizing

/-!
# Layouts are monotone in the branch forms

The more branches are short, the earlier everything stands. An entry may well take more bytes than
before, since padding fills up to a boundary or an offset, but it never ends later; and it is never
refused, since nothing that it takes no size for has come closer. The forms are arbitrary here:
they may be short where an entry has no short form, and then make no difference.

* `ShortWherever` — one choice of forms is short wherever another is.
* `Instruction.encoding_form`, `Cursor.size_short` — what the form of a branch changes.
* `Cursor.size_mono` — an entry that starts earlier, and is short if it was, ends no later.
* `Layout.layFrom_mono` — so it is for every entry of a stream.
* `compute_mono` — layouts are monotone in the branch forms.
-/

namespace BootImage

/-- The forms `forms'` are short wherever `forms` are. Where there is no form, an entry is near. -/
def ShortWherever (forms' forms : List BranchForm) : Prop :=
  ∀ i : Nat, forms[i]? = some .short → forms'[i]? = some .short

namespace ShortWherever

variable {forms forms' : List BranchForm}

theorem head (h : ShortWherever forms' forms) (hshort : forms.headD .near = .short) :
    forms'.headD .near = .short := by
  have hhead : forms[0]? = some .short := by
    cases forms with
    | nil => cases hshort
    | cons form forms => exact congrArg some hshort
  rw [List.headD_eq_head?_getD, List.head?_eq_getElem?, h 0 hhead]
  rfl

theorem tail (h : ShortWherever forms' forms) : ShortWherever forms'.tail forms.tail := by
  intro i hi
  rw [List.getElem?_tail] at hi ⊢
  exact h (i + 1) hi

theorem allNear (code : Code) (forms : List BranchForm) : ShortWherever forms code.allNear := by
  intro i hi
  rw [Code.allNear, List.getElem?_map] at hi
  cases hcode : code[i]? <;> rw [hcode] at hi <;> cases hi

end ShortWherever

/-! ## One instruction -/

namespace Instruction

variable {i : Instruction} {mode : Mode} {form : BranchForm}

theorem encoding_form (h : i.branchTarget? = none) {e : Encoding}
    (he : i.encoding (.sizing mode form) = .ok e) (form' : BranchForm) :
    i.encoding (.sizing mode form') = .ok e := by
  obtain ⟨e', he', rfl⟩ := filled_of_encoding h form' he
  have hsizing : e' = e'.filled (i.symbolField? (.sizing mode form'))
      (i.valueField? (.sizing mode form')) := encoding_sizing h he'
  exact he'.trans (congrArg Except.ok hsizing)

theorem length_form (h : i.branchTarget? = none) {n : Nat} (hn : i.length mode form = .ok n)
    (form' : BranchForm) : i.length mode form' = .ok n := by
  obtain ⟨bytes, hbytes, hlength⟩ := bind_eq_ok.1 hn
  obtain ⟨e, he, rfl⟩ := encode_eq_ok.1 hbytes
  exact bind_eq_ok.2 ⟨_, encode_eq_ok.2 ⟨e, encoding_form h he form', rfl⟩, hlength⟩

/-- A branch is no longer in short form; a call has none and stays as it is. -/
theorem branchLength_short_le (i : Instruction) (mode : Mode) :
    i.branchLength .short mode ≤ i.branchLength .near mode := by
  by_cases hjump : i.mnemonic.isJump = true
  · rw [branchLength_short hjump]
    exact (two_lt_branchLength_near i mode).le
  · have hopcode : (i.mnemonic.branchOpcode .short).length =
        (i.mnemonic.branchOpcode .near).length := by
      cases hm : i.mnemonic <;> simp_all [Mnemonic.isJump, Mnemonic.branchOpcode]
    simp [branchLength, Mnemonic.distanceWidth, hjump, hopcode]

end Instruction

/-! ## One entry -/

namespace Cursor

variable {c c' : Cursor} {e : Entry} {form form' : BranchForm} {n : Nat}

theorem size_short (h : c.size e .near = .ok n) : ∃ n' ≤ n, c.size e .short = .ok n' := by
  cases e with
  | instruction i =>
    rw [size_instruction] at h ⊢
    cases hname : i.branchTarget? with
    | none => exact ⟨n, le_rfl, Instruction.length_form hname h .short⟩
    | some name =>
      rw [Instruction.length_branch hname] at h ⊢
      cases h
      exact ⟨_, i.branchLength_short_le c.mode, rfl⟩
  | _ => exact ⟨n, le_rfl, h⟩

theorem size_mono (hoffset : c'.offset ≤ c.offset) (hmode : c'.mode = c.mode)
    (hform : form = .short → form' = .short) (h : c.size e form = .ok n) :
    ∃ n', c'.size e form' = .ok n' ∧ c'.offset + n' ≤ c.offset + n := by
  -- First the entry is read from earlier on in its own form, then that form may be shortened.
  obtain ⟨m, hm, hle⟩ := size_noLater_of_eq hoffset hmode h
  cases form with
  | short =>
    rw [hform rfl]
    exact ⟨m, hm, hle⟩
  | near =>
    cases form' with
    | near => exact ⟨m, hm, hle⟩
    | short =>
      obtain ⟨n', hn', hsize⟩ := size_short hm
      exact ⟨n', hsize, by omega⟩

end Cursor

/-! ## Whole streams -/

namespace Layout

variable {code : Code} {forms forms' : List BranchForm} {layout layout' : Layout}

/-- A stream that is read from no later on, and with more branches short, lays out with every entry
no later. -/
theorem layFrom_mono {c c' : Cursor} (hoffset : c'.offset ≤ c.offset) (hmode : c'.mode = c.mode)
    (hforms : ShortWherever forms' forms) (h : layFrom c code forms = .ok layout) :
    ∃ layout', layFrom c' code forms' = .ok layout' ∧
      List.Forall₂ (fun p' p => p'.offset ≤ p.offset) layout'.places layout.places ∧
      layout'.stop ≤ layout.stop := by
  -- By induction on the stream. It carries where the two cursors stand, since the sizes of the
  -- entries do not compare: an `align` may take more once a jump in front of it is short.
  induction code generalizing c c' forms forms' layout with
  | nil =>
    cases h
    exact ⟨_, rfl, .nil, hoffset⟩
  | cons e code ih =>
    obtain ⟨size, rest, hsize, hrest, rfl⟩ := layFrom_cons_eq_ok.1 h
    obtain ⟨size', hsize', hpast⟩ := Cursor.size_mono hoffset hmode hforms.head hsize
    have hpastMode : (c'.past e size').mode = (c.past e size).mode := congrArg e.modeAfter hmode
    obtain ⟨rest', hrest', hplaces, hstop⟩ := ih hpast hpastMode hforms.tail hrest
    exact ⟨_, layFrom_cons_eq_ok.2 ⟨size', rest', hsize', hrest', rfl⟩, .cons hoffset hplaces,
      hstop⟩

theorem map_eq_map {α : Type} {f : Place → α} (h : compute code forms = .ok layout)
    (h' : compute code forms' = .ok layout')
    (hf : ∀ (k : Nat) (p p' : Place), layout.places[k]? = some p → layout'.places[k]? = some p' →
      f p' = f p) : layout'.places.map f = layout.places.map f := by
  apply List.ext_getElem?
  intro k
  rw [List.getElem?_map, List.getElem?_map]
  cases hcode : code[k]? with
  | none =>
    have hlength := List.getElem?_eq_none_iff.1 hcode
    rw [List.getElem?_eq_none (by rwa [places_length h']),
      List.getElem?_eq_none (by rwa [places_length h])]
  | some e =>
    obtain ⟨p, hp, -⟩ := place_of_getElem? h hcode
    obtain ⟨p', hp', -⟩ := place_of_getElem? h' hcode
    rw [hp, hp', Option.map_some, Option.map_some, hf k p p' hp hp']

theorem compute_shortWherever (hforms : ShortWherever forms' forms)
    (h : compute code forms = .ok layout) :
    ∃ layout', compute code forms' = .ok layout' ∧
      layout'.places.map Place.mode = layout.places.map Place.mode ∧
      layout'.places.map Place.origin = layout.places.map Place.origin ∧
      List.Forall₂ (fun p' p => p'.offset ≤ p.offset) layout'.places layout.places ∧
      layout'.stop ≤ layout.stop := by
  obtain ⟨layout', h', hoffset, hstop⟩ := layFrom_mono le_rfl rfl hforms h
  refine ⟨layout', h', map_eq_map h h' ?_, map_eq_map h h' ?_, hoffset, hstop⟩
  · intro k p p' hp hp'
    rw [mode_eq h hp, mode_eq h' hp']
  · intro k p p' hp hp'
    rw [origin_eq h hp, origin_eq h' hp']

theorem definition?_mono (h : compute code forms = .ok layout)
    (h' : compute code forms' = .ok layout')
    (hoffset : List.Forall₂ (fun p' p => p'.offset ≤ p.offset) layout'.places layout.places)
    {name : String} {p' : Place} (hp' : layout'.definition? name = some p') :
    ∃ p, layout.definition? name = some p ∧ p'.offset ≤ p.offset := by
  rw [definition?_eq (places_entry h'), Option.bind_eq_some_iff] at hp'
  obtain ⟨k, hk, hplace'⟩ := hp'
  obtain ⟨p, hplace, hle⟩ := forall₂_getElem? hoffset hplace'
  exact ⟨p, by rw [definition?_eq (places_entry h), hk, Option.bind_some, hplace], hle⟩

end Layout

theorem Linked.size_le_stop {code : Code} {marker : Option String} {image : Image}
    {index : LabelIndex} {layout : Layout} {chunks : List (List UInt8)}
    (h : Linked code marker image index layout chunks) : image.size ≤ layout.stop := by
  have hle := extent_take_mono h.length_chunks_le layout.places
  rw [List.take_length] at hle
  rwa [Image.size, h.bytes_eq, length_flatten_of_writes h.writes, Layout.stop_eq_sum h.laidOut]

/-- **Layouts are monotone in the branch forms.** If a stream lays out, then it lays out with any
more of its branches short, in the same modes and under the same origins, and no entry, no label and
not the end stands later. So a linked image is no longer than its layout with near branches, and cut
off no later where it has a marker, and no label in it stands later than there. -/
theorem compute_mono (code : Code) :
    (∀ (forms forms' : List BranchForm) (layout : Layout), ShortWherever forms' forms →
      Layout.compute code forms = .ok layout →
      ∃ layout', Layout.compute code forms' = .ok layout' ∧
        layout'.places.map Place.mode = layout.places.map Place.mode ∧
        layout'.places.map Place.origin = layout.places.map Place.origin ∧
        List.Forall₂ (fun p' p => p'.offset ≤ p.offset) layout'.places layout.places ∧
        layout'.stop ≤ layout.stop) ∧
    ∀ (marker : Option String) (image : Image), link code marker = .ok image →
      ∃ near, Layout.compute code code.allNear = .ok near ∧ image.size ≤ near.stop ∧
        (∀ name, marker = some name →
          ∃ p, near.definition? name = some p ∧ image.size ≤ p.offset) ∧
        ∀ name place, image.label? name = some place →
          ∃ p, near.definition? name = some p ∧ place.offset ≤ p.offset := by
  refine ⟨fun forms forms' layout => Layout.compute_shortWherever, ?_⟩
  intro marker image himage
  obtain ⟨index, r, written, hindex, hrelax, hwritten, hemit⟩ := link_eq_ok.1 himage
  obtain ⟨hcode, hr⟩ := relax_outcome hindex hrelax
  obtain ⟨near, hnear⟩ := hcode.laysOut
  obtain ⟨chunks, hlinked⟩ := linked_of_emit hindex hrelax hwritten hemit
  -- All forms are short wherever the near ones are, so the settled layout is compared to those.
  obtain ⟨layout, hlayout, -, -, hoffset, hstop⟩ :=
    Layout.compute_shortWherever (.allNear code r.layout.forms) hnear
  rw [hr.laidOut] at hlayout
  cases hlayout
  have hlabel : ∀ name place, image.label? name = some place →
      ∃ p, near.definition? name = some p ∧ place.offset ≤ p.offset := by
    intro name place hplace
    rw [hlinked.label?_eq] at hplace
    obtain ⟨p', hp', rfl⟩ := Option.map_eq_some_iff.1 hplace
    exact Layout.definition?_mono hnear hr.laidOut hoffset hp'
  refine ⟨near, hnear, hlinked.size_le_stop.trans hstop, ?_, hlabel⟩
  intro name hname
  obtain ⟨hfind, p, hp, hsize⟩ := hlinked.size_eq hname
  obtain ⟨q, hq, hplace⟩ := hlinked.label?_of_findIdx? hfind
  rw [hp] at hq
  cases hq
  rw [hsize]
  exact hlabel name _ hplace

/-- A jump over an alignment, which takes more bytes once the jump is short. -/
theorem compute_mono_padded :
    (∃ near short : Layout,
      Layout.compute [.instruction ⟨.jmp, [.label "end"]⟩, .align 8, .label "end"]
        [.near] = .ok near ∧
      Layout.compute [.instruction ⟨.jmp, [.label "end"]⟩, .align 8, .label "end"]
        [.short, .short] = .ok short ∧
      near.places.map Place.size = [5, 3, 0] ∧ short.places.map Place.size = [2, 6, 0] ∧
      short.stop ≤ near.stop) ∧
    ∃ image near, link [.instruction ⟨.jmp, [.label "end"]⟩, .label "end"] none = .ok image ∧
      Layout.compute [.instruction ⟨.jmp, [.label "end"]⟩, .label "end"]
        (Code.allNear [.instruction ⟨.jmp, [.label "end"]⟩, .label "end"]) = .ok near ∧
      image.size ≤ near.stop ∧ near.stop = 5 ∧ image.size = 2 := by
  constructor
  · have hforms : ShortWherever [.short, .short] [.near] := by
      intro i hi
      cases i with
      | zero => cases hi
      | succ i => simp at hi
    have hnear : Layout.compute [.instruction ⟨.jmp, [.label "end"]⟩, .align 8, .label "end"]
        [.near] = .ok _ := rfl
    obtain ⟨short, hshort, -, -, -, hstop⟩ := (compute_mono _).1 _ _ _ hforms hnear
    refine ⟨_, short, hnear, hshort, rfl, ?_, hstop⟩
    cases hshort
    rfl
  · have himage : link [.instruction ⟨.jmp, [.label "end"]⟩, .label "end"] none = .ok _ := rfl
    obtain ⟨near, hnear, hsize, -⟩ := (compute_mono _).2 _ _ himage
    refine ⟨_, near, himage, hnear, hsize, ?_, rfl⟩
    cases hnear
    rfl

end BootImage
