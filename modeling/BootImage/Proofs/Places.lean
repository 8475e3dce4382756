import BootImage.Proofs.Checked
import BootImage.Relaxation

/-!
# The places of a layout

A layout is one run of the cursor, so its places stand one behind the other without gaps, one for
each entry, and each takes the bytes that its entry takes at the cursor that stands there.

* `places_entry`, `places_form` — the entries and branch forms of the places are those laid out.
* `size_of_mem` — every place has the size of its entry.
* `offset_eq_sum`, `stop_eq_sum` — offsets are sums of sizes.
* `stop_le_offset` — places do not overlap.
-/

namespace BootImage

/-- The cursor at the first byte of the entry, in the mode that the entry is in. -/
def Place.cursor (p : Place) : Cursor where
  offset := p.offset
  origin := p.origin
  mode := p.mode

/-- The bytes of a run of places. -/
def extent (places : List Place) : Nat :=
  (places.map Place.size).sum

@[simp] theorem extent_nil : extent [] = 0 := rfl

@[simp] theorem extent_cons (p : Place) (places : List Place) :
    extent (p :: places) = p.size + extent places := by
  simp [extent]

theorem extent_append (ps qs : List Place) : extent (ps ++ qs) = extent ps + extent qs := by
  simp [extent]

theorem extent_take_mono {i j : Nat} (hle : i ≤ j) (places : List Place) :
    extent (places.take i) ≤ extent (places.take j) := by
  rw [← Nat.add_sub_cancel' hle, List.take_add, extent_append]
  exact Nat.le_add_right ..

/-- The branch forms of the places. -/
def Layout.forms (layout : Layout) : List BranchForm :=
  layout.places.map Place.form

namespace Layout

variable {c : Cursor} {code : Code} {forms : List BranchForm} {layout : Layout}

/-- What the layout of a stream with a first entry is made of. -/
theorem layFrom_cons_eq_ok {e : Entry} :
    layFrom c (e :: code) forms = .ok layout ↔
      ∃ size rest, c.size e (forms.headD .near) = .ok size ∧
        layFrom (c.past e size) code forms.tail = .ok rest ∧
        layout = {
          places := {
            entry := e, form := forms.headD .near, offset := c.offset, origin := c.origin
            mode := e.modeAfter c.mode, size } :: rest.places
          stop := rest.stop } := by
  simp only [layFrom, Cursor.advance, bind_eq_ok, pure, Except.pure, Except.ok.injEq]
  constructor
  · rintro ⟨-, ⟨size, hsize, rfl⟩, rest, hrest, rfl⟩
    exact ⟨size, rest, hsize, hrest, rfl⟩
  · rintro ⟨size, rest, hsize, hrest, rfl⟩
    exact ⟨_, ⟨size, hsize, rfl⟩, rest, hrest, rfl⟩

/-- Why a stream with a first entry has no layout. -/
theorem layFrom_cons_eq_error {e : Entry} {err : AssemblyError} :
    layFrom c (e :: code) forms = .error err ↔
      c.size e (forms.headD .near) = .error err ∨
        ∃ size, c.size e (forms.headD .near) = .ok size ∧
          layFrom (c.past e size) code forms.tail = .error err := by
  simp only [layFrom, Cursor.advance, bind_eq_error, bind_eq_ok, pure, Except.pure,
    reduceCtorEq, and_false, exists_false, or_false, Except.ok.injEq]
  constructor
  · rintro (hsize | ⟨-, ⟨size, hsize, rfl⟩, hrest⟩)
    · exact .inl hsize
    · exact .inr ⟨size, hsize, hrest⟩
  · rintro (hsize | ⟨size, hsize, hrest⟩)
    · exact .inl hsize
    · exact .inr ⟨_, ⟨size, hsize, rfl⟩, hrest⟩

theorem entries_layFrom (h : layFrom c code forms = .ok layout) :
    layout.places.map Place.entry = code := by
  induction code generalizing c forms layout with
  | nil => cases h; rfl
  | cons e code ih =>
    obtain ⟨size, rest, -, hrest, rfl⟩ := layFrom_cons_eq_ok.1 h
    simp [ih hrest]

theorem forms_layFrom (h : layFrom c code forms = .ok layout)
    (hlength : forms.length = code.length) : layout.forms = forms := by
  induction code generalizing c forms layout with
  | nil => cases h; simpa [Layout.forms, eq_comm] using hlength
  | cons e code ih =>
    obtain ⟨size, rest, -, hrest, rfl⟩ := layFrom_cons_eq_ok.1 h
    cases forms with
    | nil => simp at hlength
    | cons form forms =>
      have := ih hrest (by simpa using hlength)
      simpa [Layout.forms] using this

/-- The size of an entry does not depend on whether a mode directive has been read already. -/
theorem size_modeAfter (c : Cursor) (e : Entry) (form : BranchForm) :
    Cursor.size { c with mode := e.modeAfter c.mode } e form = c.size e form := by
  cases e <;> rfl

theorem size_layFrom (h : layFrom c code forms = .ok layout) {p : Place}
    (hp : p ∈ layout.places) : p.cursor.size p.entry p.form = .ok p.size := by
  induction code generalizing c forms layout with
  | nil => cases h; cases hp
  | cons e code ih =>
    obtain ⟨size, rest, hsize, hrest, rfl⟩ := layFrom_cons_eq_ok.1 h
    rcases List.mem_cons.1 hp with rfl | hp
    · exact (size_modeAfter c e _).trans hsize
    · exact ih hrest hp

theorem offset_layFrom (h : layFrom c code forms = .ok layout) {i : Nat} {p : Place}
    (hp : layout.places[i]? = some p) : p.offset = c.offset + extent (layout.places.take i) := by
  induction code generalizing c forms layout i with
  | nil => cases h; simp at hp
  | cons e code ih =>
    obtain ⟨size, rest, -, hrest, rfl⟩ := layFrom_cons_eq_ok.1 h
    cases i with
    | zero =>
      cases hp
      simp
    | succ i =>
      have := ih hrest hp
      simp only [Cursor.past] at this
      simp only [List.take_succ_cons, extent_cons]
      omega

theorem stop_layFrom (h : layFrom c code forms = .ok layout) :
    layout.stop = c.offset + extent layout.places := by
  induction code generalizing c forms layout with
  | nil => cases h; rfl
  | cons e code ih =>
    obtain ⟨size, rest, -, hrest, rfl⟩ := layFrom_cons_eq_ok.1 h
    have := ih hrest
    simp only [Cursor.past] at this
    simp only [extent_cons]
    omega

/-! ## From the start of the image -/

variable (h : compute code forms = .ok layout)
include h

theorem places_entry : layout.places.map Place.entry = code :=
  entries_layFrom h

theorem places_length : layout.places.length = code.length := by
  rw [← places_entry h, List.length_map]

theorem places_form (hlength : forms.length = code.length) : layout.forms = forms :=
  forms_layFrom h hlength

theorem size_of_mem {p : Place} (hp : p ∈ layout.places) :
    p.cursor.size p.entry p.form = .ok p.size :=
  size_layFrom h hp

theorem offset_eq_sum {i : Nat} {p : Place} (hp : layout.places[i]? = some p) :
    p.offset = extent (layout.places.take i) := by
  simpa using offset_layFrom h hp

theorem stop_eq_sum : layout.stop = extent layout.places := by
  simpa using stop_layFrom h

theorem stop_eq_extent {i : Nat} {p : Place} (hp : layout.places[i]? = some p) :
    p.stop = extent (layout.places.take (i + 1)) := by
  rw [Place.stop, offset_eq_sum h hp, List.take_add_one, hp, extent_append]
  simp

/-- Every place stands directly behind the one in front of it. -/
theorem offset_succ {i : Nat} {p q : Place} (hp : layout.places[i]? = some p)
    (hq : layout.places[i + 1]? = some q) : q.offset = p.stop := by
  rw [offset_eq_sum h hq, stop_eq_extent h hp]

/-- A place ends in front of every later one. -/
theorem stop_le_offset {i j : Nat} {p q : Place} (hp : layout.places[i]? = some p)
    (hq : layout.places[j]? = some q) (hlt : i < j) : p.stop ≤ q.offset := by
  rw [stop_eq_extent h hp, offset_eq_sum h hq]
  exact extent_take_mono hlt _

theorem entry_of_getElem? {i : Nat} {p : Place} (hp : layout.places[i]? = some p) :
    code[i]? = some p.entry := by
  rw [← places_entry h, List.getElem?_map, hp]
  rfl

theorem place_of_getElem? {i : Nat} {e : Entry} (he : code[i]? = some e) :
    ∃ p, layout.places[i]? = some p ∧ p.entry = e := by
  rw [← places_entry h, List.getElem?_map] at he
  exact Option.map_eq_some_iff.1 he

end Layout

end BootImage
