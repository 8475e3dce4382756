import BootImage.Proofs.LinearSearch
import Mathlib.Order.Bounds.Defs

/-!
# Reading entry by entry

Reading an entry moves the cursor over the bytes that the entry takes, and sets the origin or the
mode if the entry does. The cursor is one record that is assigned to in place, so an entry that
cannot be read might leave it changed; it does not. A layout notes where the entries of a stream
stand while they are read one after the other: a mode directive in the mode that it sets, and an
origin directive still under the origin in front of it.

* `Entry.read`, `Entry.run_read` — reading in place, and its agreement with `Cursor.advance`.
* `Cursor.Reads`, `Cursor.Refuses` — what reading an entry does, and which entries have no reading.
* `Code.lastOrigin?`, `Code.lastMode?` — what the directives of a stream set last.
* `Layout.LaidFrom`, `Layout.layFrom_eq_ok_iff` — what a layout of a stream is.
* `reading_exact` — reading and laying out do just this.
-/

namespace BootImage

/-! ## Reading in place -/

/-- A computation on a cursor in place: if it fails, the changes that it has made remain. -/
abbrev Reading := EStateM AssemblyError Cursor

namespace Entry

/-- Sets what the entry sets, and gives the number of bytes that it takes. -/
def readSize (e : Entry) (form : BranchForm) : Reading Nat := do
  match e with
  | bits mode =>
    modify fun c => { c with mode }
    pure 0
  | org origin =>
    modify fun c => { c with origin }
    pure 0
  | offset target =>
    let c ← get
    if target.toNat < c.offset then
      throw (.offsetBehindCursor target.toNat c.offset)
    pure (target.toNat - c.offset)
  | align boundary =>
    if boundary = 0 then
      throw (.invalidAlignment 0)
    let c ← get
    pure (Cursor.padding c.offset boundary.toNat)
  | e =>
    match e.length (← get).mode form with
    | .ok size => pure size
    | .error err => throw err

/-- Reads the entry in place, and gives the number of bytes that it takes. -/
def read (e : Entry) (form : BranchForm) : Reading Nat := do
  let size ← e.readSize form
  modify fun c => { c with offset := c.offset + size }
  pure size

/-- Reading in place is a step of the cursor, and changes nothing if it fails. -/
theorem run_read (e : Entry) (form : BranchForm) (c : Cursor) : (e.read form).run c =
    match c.advance e form with
    | .ok (size, c') => .ok size c'
    | .error err => .error err c := by
  rw [Cursor.advance]
  cases e with
  | offset target =>
    simp only [read, readSize, Cursor.size, EStateM.run_bind, EStateM.run_get]
    by_cases h : target.toNat < c.offset <;> simp only [h, if_true, if_false] <;> rfl
  | align boundary =>
    simp only [read, readSize, Cursor.size, EStateM.run_bind]
    by_cases h : boundary = 0 <;> simp only [h, if_true, if_false] <;> rfl
  | instruction i =>
    simp only [read, readSize, Cursor.size, EStateM.run_bind, EStateM.run_get]
    cases (instruction i).length c.mode form <;> rfl
  | _ => rfl

end Entry

/-! ## What reading does -/

namespace Cursor

/-- Reading the entry at `c` takes `n` bytes and leads to `c'`. -/
structure Reads (c : Cursor) (e : Entry) (form : BranchForm) (n : Nat) (c' : Cursor) : Prop where
  offset_eq : c'.offset = c.offset + n
  /-- The origin changes only for an origin directive. -/
  origin_eq : (∀ origin, e ≠ .org origin) → c'.origin = c.origin
  origin_set : ∀ origin, e = .org origin → c'.origin = origin
  /-- The mode changes only for a mode directive. -/
  mode_eq : (∀ mode, e ≠ .bits mode) → c'.mode = c.mode
  mode_set : ∀ mode, e = .bits mode → c'.mode = mode
  /-- Alignment goes to the least multiple of the boundary that is not behind the cursor. -/
  aligned : ∀ boundary, e = .align boundary → boundary ≠ 0 ∧
    IsLeast {m | c.offset ≤ m ∧ boundary.toNat ∣ m} c'.offset
  /-- An offset directive goes to its offset, which is not behind the cursor. -/
  moved : ∀ target, e = .offset target → c.offset ≤ target.toNat ∧ c'.offset = target.toNat
  /-- Any other entry takes its length. -/
  length_eq : (∀ boundary, e ≠ .align boundary) → (∀ target, e ≠ .offset target) →
    e.length c.mode form = .ok n

/-- The entry cannot be read at the cursor. -/
inductive Refuses (c : Cursor) (form : BranchForm) : Entry → AssemblyError → Prop
  | alignment : c.Refuses form (.align 0) (.invalidAlignment 0)
  | behind {target : UInt32} : target.toNat < c.offset →
      c.Refuses form (.offset target) (.offsetBehindCursor target.toNat c.offset)
  | unencodable {i : Instruction} {err : AssemblyError} : i.length c.mode form = .error err →
      c.Refuses form (.instruction i) err

variable {c c' : Cursor} {e : Entry} {form : BranchForm} {n : Nat} {err : AssemblyError}

theorem isLeast_add_padding (offset : Nat) {boundary : UInt32} (h : boundary ≠ 0) :
    IsLeast {m | offset ≤ m ∧ boundary.toNat ∣ m} (offset + padding offset boundary.toNat) := by
  have hpos := boundary_pos h
  exact ⟨⟨Nat.le_add_right .., dvd_add_padding offset hpos⟩,
    fun m ⟨hle, hdvd⟩ => add_padding_le hpos hle hdvd⟩

namespace Reads

variable (h : c.Reads e form n c')
include h

theorem eq_past : c' = c.past e n := by
  obtain ⟨offset', origin', mode'⟩ := c'
  rw [past, Cursor.mk.injEq]
  refine ⟨h.offset_eq, ?_, ?_⟩
  · cases e with
    | org origin => exact h.origin_set origin rfl
    | _ => exact h.origin_eq (by simp)
  · cases e with
    | bits mode => exact h.mode_set mode rfl
    | _ => exact h.mode_eq (by simp)

theorem size_eq : c.size e form = .ok n := by
  cases e with
  | align boundary =>
    obtain ⟨hne, hleast⟩ := h.aligned boundary rfl
    have hoffset := hleast.unique (isLeast_add_padding c.offset hne)
    rw [h.offset_eq] at hoffset
    exact size_align_eq_ok.2 ⟨hne, Nat.add_left_cancel hoffset⟩
  | offset target =>
    obtain ⟨hle, htarget⟩ := h.moved target rfl
    exact size_offset_eq_ok.2 ⟨hle, h.offset_eq.symm.trans htarget⟩
  | _ => exact h.length_eq (by simp) (by simp)

end Reads

theorem reads_past (h : c.size e form = .ok n) : c.Reads e form n (c.past e n) where
  offset_eq := rfl
  origin_eq hne := by
    cases e with
    | org origin => exact absurd rfl (hne origin)
    | _ => rfl
  origin_set := by
    rintro _ rfl
    rfl
  mode_eq hne := by
    cases e with
    | bits mode => exact absurd rfl (hne mode)
    | _ => rfl
  mode_set := by
    rintro _ rfl
    rfl
  aligned := by
    rintro boundary rfl
    obtain ⟨hne, rfl⟩ := size_align_eq_ok.1 h
    exact ⟨hne, isLeast_add_padding c.offset hne⟩
  moved := by
    rintro target rfl
    exact size_offset_eq_ok.1 h
  length_eq halign hoffset := by
    cases e with
    | align boundary => exact absurd rfl (halign boundary)
    | offset target => exact absurd rfl (hoffset target)
    | _ => exact h

/-- Reading an entry takes its size, and leads to the cursor behind it. -/
theorem reads_iff : c.Reads e form n c' ↔ c.size e form = .ok n ∧ c' = c.past e n :=
  ⟨fun h => ⟨h.size_eq, h.eq_past⟩, fun ⟨hsize, hpast⟩ => hpast ▸ reads_past hsize⟩

theorem refuses_iff : c.Refuses form e err ↔ c.size e form = .error err := by
  constructor
  · rintro (_ | hbehind | hlength)
    · rfl
    · rw [size, if_pos hbehind]
    · exact hlength
  · intro h
    cases e with
    | align boundary =>
      by_cases hzero : boundary = 0
      · subst hzero
        cases h
        exact .alignment
      · simp [size, hzero] at h
    | offset target =>
      by_cases hbehind : target.toNat < c.offset
      · rw [size, if_pos hbehind] at h
        cases h
        exact .behind hbehind
      · simp [size, hbehind] at h
    | instruction i => exact .unencodable h
    | _ => cases h

end Cursor

namespace Entry

variable {c c' : Cursor} {e : Entry} {form : BranchForm} {n : Nat} {err : AssemblyError}

theorem read_eq_ok : (e.read form).run c = .ok n c' ↔ c.Reads e form n c' := by
  rw [run_read, Cursor.reads_iff, Cursor.advance]
  cases c.size e form with
  | error err => simp
  | ok size =>
    simp only [ok_bind, pure, Except.pure, EStateM.Result.ok.injEq, Except.ok.injEq]
    constructor
    · rintro ⟨rfl, rfl⟩
      exact ⟨rfl, rfl⟩
    · rintro ⟨rfl, rfl⟩
      exact ⟨rfl, rfl⟩

theorem read_eq_error :
    (e.read form).run c = .error err c' ↔ c.Refuses form e err ∧ c' = c := by
  rw [run_read, Cursor.refuses_iff, Cursor.advance]
  cases c.size e form with
  | error err => simp [eq_comm]
  | ok size => simp [pure, Except.pure]

end Entry

/-! ## What a layout is -/

namespace Entry

/-- The origin that the entry sets. -/
def origin? : Entry → Option UInt32
  | org origin => some origin
  | _ => none

/-- The mode that the entry sets. -/
def mode? : Entry → Option Mode
  | bits mode => some mode
  | _ => none

theorem originAfter_eq (e : Entry) (origin : UInt32) :
    e.originAfter origin = e.origin?.getD origin := by
  cases e <;> rfl

theorem modeAfter_eq (e : Entry) (mode : Mode) : e.modeAfter mode = e.mode?.getD mode := by
  cases e <;> rfl

end Entry

namespace Code

/-- The origin that a stream sets last. -/
def lastOrigin? (code : Code) : Option UInt32 :=
  (code.filterMap Entry.origin?).getLast?

/-- The mode that a stream sets last. -/
def lastMode? (code : Code) : Option Mode :=
  (code.filterMap Entry.mode?).getLast?

theorem originAfter_eq_getD (code : Code) (origin : UInt32) :
    code.originAfter origin = code.lastOrigin?.getD origin := by
  induction code generalizing origin with
  | nil => rfl
  | cons e code ih =>
    rw [originAfter_cons, ih, e.originAfter_eq, lastOrigin?, lastOrigin?, List.filterMap_cons]
    cases e.origin? with
    | none => rfl
    | some origin' => rw [List.getLast?_cons]; rfl

theorem modeAfter_eq_getD (code : Code) (mode : Mode) :
    code.modeAfter mode = code.lastMode?.getD mode := by
  induction code generalizing mode with
  | nil => rfl
  | cons e code ih =>
    rw [modeAfter_cons, ih, e.modeAfter_eq, lastMode?, lastMode?, List.filterMap_cons]
    cases e.mode? with
    | none => rfl
    | some mode' => rw [List.getLast?_cons]; rfl

end Code

namespace Layout

/-- The layout is one of the stream, read from the cursor `c` on. -/
structure LaidFrom (c : Cursor) (code : Code) (forms : List BranchForm) (layout : Layout) :
    Prop where
  /-- There is a place for each entry. -/
  entries : layout.places.map Place.entry = code
  form_eq : ∀ (k : Nat) (p : Place), layout.places[k]? = some p → p.form = forms[k]?.getD .near
  /-- The places stand one behind the other. -/
  first : ∀ p : Place, layout.places[0]? = some p → p.offset = c.offset
  next : ∀ (k : Nat) (p q : Place), layout.places[k]? = some p → layout.places[k + 1]? = some q →
    q.offset = p.offset + p.size
  stop_eq : layout.stop = c.offset + (layout.places.map Place.size).sum
  /-- An entry is under the origin set last in front of it. -/
  origin_eq : ∀ (k : Nat) (p : Place), layout.places[k]? = some p →
    p.origin = (Code.lastOrigin? (code.take k)).getD c.origin
  /-- It is in the mode set last in front of it, but a mode directive in the mode that it sets. -/
  mode_eq : ∀ (k : Nat) (p : Place), layout.places[k]? = some p → (∀ mode, p.entry ≠ .bits mode) →
    p.mode = (Code.lastMode? (code.take k)).getD c.mode
  mode_set : ∀ p ∈ layout.places, ∀ mode, p.entry = .bits mode → p.mode = mode
  /-- The size of a place is what reading its entry takes there. -/
  reads : ∀ p ∈ layout.places, ∃ c', p.cursor.Reads p.entry p.form p.size c'

variable {c : Cursor} {code : Code} {forms : List BranchForm} {layout : Layout}
  {err : AssemblyError}

theorem form_layFrom (h : layFrom c code forms = .ok layout) {k : Nat} {p : Place}
    (hp : layout.places[k]? = some p) : p.form = forms[k]?.getD .near := by
  induction code generalizing c forms layout k with
  | nil => cases h; simp at hp
  | cons e code ih =>
    obtain ⟨size, rest, -, hrest, rfl⟩ := layFrom_cons_eq_ok.1 h
    cases k with
    | zero =>
      cases hp
      cases forms <;> rfl
    | succ k =>
      rw [ih hrest hp]
      cases forms <;> rfl

/-- The mode at an entry, told from what stands in front of it. -/
theorem mode_layFrom_eq (h : layFrom c code forms = .ok layout) {k : Nat} {p : Place}
    (hp : layout.places[k]? = some p) :
    p.mode = p.entry.modeAfter (Code.modeAfter (code.take k) c.mode) := by
  have hentry : code[k]? = some p.entry := by
    rw [← entries_layFrom h, List.getElem?_map, hp]
    rfl
  rw [mode_layFrom h hp, List.take_add_one, hentry, Code.modeAfter_append]
  rfl

theorem laidFrom_of_layFrom (h : layFrom c code forms = .ok layout) :
    layout.LaidFrom c code forms where
  entries := entries_layFrom h
  form_eq _ _ := form_layFrom h
  first p hp := by simpa using offset_layFrom h hp
  next k p q hp hq := by
    rw [offset_layFrom h hp, offset_layFrom h hq, List.take_add_one, hp, extent_append]
    simp [Nat.add_assoc]
  stop_eq := stop_layFrom h
  origin_eq k p hp := by rw [origin_layFrom h hp, Code.originAfter_eq_getD]
  -- Only a mode directive changes the mode at its own place.
  mode_eq k p hp hne := by
    rw [mode_layFrom_eq h hp, ← Code.modeAfter_eq_getD]
    cases he : p.entry with
    | bits mode => exact absurd he (hne mode)
    | _ => rfl
  mode_set p hp mode he := by
    obtain ⟨k, hk⟩ := List.getElem?_of_mem hp
    rw [mode_layFrom_eq h hk, he]
    rfl
  reads p hp := ⟨_, Cursor.reads_iff.2 ⟨size_layFrom h hp, rfl⟩⟩

namespace LaidFrom

variable {e : Entry} {p : Place} {places : List Place} {stop : Nat}

theorem head_eq (h : LaidFrom c (e :: code) forms ⟨p :: places, stop⟩) : p = {
    entry := e, form := forms.headD .near, offset := c.offset, origin := c.origin
    mode := e.modeAfter c.mode, size := p.size } := by
  have hentry : p.entry = e := (List.cons.inj h.entries).1
  have hmode : p.mode = e.modeAfter c.mode := by
    subst hentry
    cases he : p.entry with
    | bits mode => exact h.mode_set p List.mem_cons_self mode he
    | _ => exact h.mode_eq 0 p rfl (by simp [he])
  have hform := h.form_eq 0 p rfl
  have hoffset := h.first p rfl
  have horigin := h.origin_eq 0 p rfl
  obtain ⟨entry, form, offset, origin, mode, size⟩ := p
  rw [Place.mk.injEq]
  exact ⟨hentry, by cases forms <;> exact hform, hoffset, horigin, hmode, rfl⟩

theorem tail (h : LaidFrom c (e :: code) forms ⟨p :: places, stop⟩) :
    LaidFrom (c.past e p.size) code forms.tail ⟨places, stop⟩ where
  entries := (List.cons.inj h.entries).2
  form_eq k q hq := by rw [h.form_eq (k + 1) q hq, List.getElem?_tail]
  first q hq := by rw [h.next 0 p q rfl hq, h.first p rfl]; rfl
  next k := h.next (k + 1)
  stop_eq := by rw [h.stop_eq]; simp [Cursor.past, Nat.add_assoc]
  origin_eq k q hq := by
    rw [h.origin_eq (k + 1) q hq, List.take_succ_cons, ← Code.originAfter_eq_getD,
      ← Code.originAfter_eq_getD]
    rfl
  mode_eq k q hq hne := by
    rw [h.mode_eq (k + 1) q hq hne, List.take_succ_cons, ← Code.modeAfter_eq_getD,
      ← Code.modeAfter_eq_getD]
    rfl
  mode_set q hq := h.mode_set q (List.mem_cons_of_mem _ hq)
  reads q hq := h.reads q (List.mem_cons_of_mem _ hq)

end LaidFrom

theorem layFrom_of_laidFrom (h : layout.LaidFrom c code forms) :
    layFrom c code forms = .ok layout := by
  induction code generalizing c forms layout with
  | nil =>
    obtain ⟨places, stop⟩ := layout
    obtain rfl : places = [] := List.map_eq_nil_iff.1 h.entries
    obtain rfl : stop = c.offset := h.stop_eq
    rfl
  | cons e code ih =>
    obtain ⟨places, stop⟩ := layout
    obtain ⟨p, places, rfl, -, -⟩ := List.map_eq_cons_iff.1 h.entries
    obtain ⟨c', hreads⟩ := h.reads p List.mem_cons_self
    have hsize := (Cursor.reads_iff.1 hreads).1
    rw [h.head_eq] at hsize
    have hhead : c.size e (forms.headD .near) = .ok p.size :=
      (size_modeAfter c e _).symm.trans hsize
    exact layFrom_cons_eq_ok.2 ⟨p.size, _, hhead, ih h.tail, by rw [← h.head_eq]⟩

/-- **What a layout is**: one place for each entry, as reading comes by it. -/
theorem layFrom_eq_ok_iff : layFrom c code forms = .ok layout ↔ layout.LaidFrom c code forms :=
  ⟨laidFrom_of_layFrom, layFrom_of_laidFrom⟩

/-- A stream has no layout exactly if an entry has no size behind those in front of it. -/
theorem layFrom_eq_error_iff : layFrom c code forms = .error err ↔
    ∃ k e before, code[k]? = some e ∧ layFrom c (code.take k) forms = .ok before ∧
      (before.behind c (code.take k)).size e (forms[k]?.getD .near) = .error err := by
  induction code generalizing c forms with
  | nil => simp [layFrom]
  | cons e code ih =>
    have hform : forms[0]?.getD .near = forms.headD .near := by cases forms <;> rfl
    rw [layFrom_cons_eq_error]
    constructor
    · rintro (hsize | ⟨size, hsize, hrest⟩)
      · exact ⟨0, e, ⟨[], c.offset⟩, rfl, rfl, hform ▸ hsize⟩
      · obtain ⟨k, e', before, he', hbefore, herror⟩ := ih.1 hrest
        rw [List.getElem?_tail] at herror
        exact ⟨k + 1, e', _, he', layFrom_cons_eq_ok.2 ⟨size, before, hsize, hbefore, rfl⟩, herror⟩
    · rintro ⟨k, e', before, he', hbefore, herror⟩
      cases k with
      | zero =>
        cases he'
        cases hbefore
        exact .inl (hform ▸ herror)
      | succ k =>
        obtain ⟨size, rest, hsize, hrest, rfl⟩ := layFrom_cons_eq_ok.1 hbefore
        rw [← List.getElem?_tail] at herror
        exact .inr ⟨size, hsize, ih.2 ⟨k, e', rest, he', hrest, herror⟩⟩

end Layout

/-- **Reading and laying out.** Reading an entry at a cursor takes the bytes and sets the origin and
the mode that the entry says, or fails and leaves the cursor as it was. The layout of a stream has
what reading it from the start comes by, or the error of the first entry that cannot be read. -/
theorem reading_exact :
    (∀ (c : Cursor) (e : Entry) (form : BranchForm),
      (∀ n c', (e.read form).run c = .ok n c' ↔ c.Reads e form n c') ∧
      ∀ err c', (e.read form).run c = .error err c' ↔ c.Refuses form e err ∧ c' = c) ∧
    ∀ (code : Code) (forms : List BranchForm),
      (∀ layout, Layout.compute code forms = .ok layout ↔
        layout.LaidFrom ⟨0, 0, .bits32⟩ code forms) ∧
      ∀ err, Layout.compute code forms = .error err ↔
        ∃ k e before, code[k]? = some e ∧ Layout.compute (code.take k) forms = .ok before ∧
          (before.behind ⟨0, 0, .bits32⟩ (code.take k)).Refuses (forms[k]?.getD .near) e err := by
  refine ⟨fun c e form => ⟨fun n c' => Entry.read_eq_ok, fun err c' => Entry.read_eq_error⟩,
    fun code forms => ⟨fun layout => Layout.layFrom_eq_ok_iff, fun err => ?_⟩⟩
  simp only [Cursor.refuses_iff]
  exact Layout.layFrom_eq_error_iff

end BootImage
