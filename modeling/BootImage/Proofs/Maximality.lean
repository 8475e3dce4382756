import BootImage.Proofs.Emission

/-!
# Jumps that are left near

A pass estimates where the target of a near jump would be if the jump were short: a later target
is taken to come closer by the bytes that the jump saves. For a target in front of the jump the
estimate is exact. For a later one it is the distance from the near jump, and the distance from the
short one can only be less if padding in between takes fewer bytes: an `align` directive that the
saved bytes bring over a boundary. Then a jump is left near although it could be short.

* `offset_set` — shortening a jump leaves everything up to its own offset in place.
* `exists_smaller` — where two layouts differ in extent, one of their entries differs in size.
* `align_of_smaller` — only padding takes fewer bytes.
* `not_fits_of_reaches` — a jump that is left near is out of reach by the estimate.
* `distance?_of_lt` — the distance to a later target is the space in between.
* `alignShrinks_of_reaches` — only padding brings the target of such a jump into reach.
-/

namespace BootImage

/-! ## What stands in front of a shortened jump -/

namespace Layout

variable {c : Cursor} {code : Code} {forms : List BranchForm} {layout layout' : Layout} {i : Nat}

theorem take_layFrom_set (form : BranchForm) (h : layFrom c code forms = .ok layout)
    (h' : layFrom c code (forms.set i form) = .ok layout') :
    layout'.places.take i = layout.places.take i := by
  -- The forms are read from the front, so one that is changed matters from its entry on.
  induction code generalizing c forms i layout layout' with
  | nil =>
    cases h
    cases h'
    rfl
  | cons e code ih =>
    cases i with
    | zero => rfl
    | succ i =>
      have hhead : (forms.set (i + 1) form).headD .near = forms.headD .near := by
        cases forms <;> rfl
      have htail : (forms.set (i + 1) form).tail = forms.tail.set i form := by
        cases forms <;> rfl
      obtain ⟨size, rest, hsize, hrest, rfl⟩ := layFrom_cons_eq_ok.1 h
      obtain ⟨size', rest', hsize', hrest', rfl⟩ := layFrom_cons_eq_ok.1 h'
      rw [hhead, hsize] at hsize'
      cases hsize'
      rw [htail] at hrest'
      simp only [List.take_succ_cons, hhead, ih hrest hrest']

theorem offset_set {form : BranchForm} (h : compute code forms = .ok layout)
    (h' : compute code (forms.set i form) = .ok layout') {k : Nat} {p p' : Place} (hk : k ≤ i)
    (hp : layout.places[k]? = some p) (hp' : layout'.places[k]? = some p') :
    p'.offset = p.offset := by
  have htake := congrArg (List.take k) (take_layFrom_set form h h')
  rw [List.take_take, List.take_take, Nat.min_eq_left hk] at htake
  rw [offset_eq_sum h hp, offset_eq_sum h' hp', htake]

/-! ## What stands between a jump and a later target -/

theorem offset_eq_stop_add (h : compute code forms = .ok layout) {t : Nat} {p q : Place}
    (hit : i < t) (hp : layout.places[i]? = some p) (hq : layout.places[t]? = some q) :
    q.offset = p.stop + extent ((layout.places.take t).drop (i + 1)) := by
  have hsplit := congrArg extent (List.take_append_drop (i + 1) (layout.places.take t))
  rw [extent_append, List.take_take, Nat.min_eq_left hit, List.take_add_one, hp, extent_append]
    at hsplit
  rw [offset_eq_sum h hq, ← hsplit, Place.stop, offset_eq_sum h hp]
  simp

end Layout

theorem exists_smaller {places places' : List Place}
    (h : List.Forall₂ Place.NoLater places' places) (hlt : extent places' < extent places) :
    ∃ (k : Nat) (p p' : Place), places[k]? = some p ∧ places'[k]? = some p' ∧ p'.NoLater p ∧
      p'.size < p.size := by
  induction h with
  | nil => exact absurd hlt (lt_irrefl _)
  | @cons p' p _ _ hp _ ih =>
    by_cases hsize : p'.size < p.size
    · exact ⟨0, p, p', rfl, rfl, hp, hsize⟩
    · rw [extent_cons, extent_cons] at hlt
      obtain ⟨k, q, q', hq, hq', hnoLater, hsmaller⟩ := ih (by omega)
      exact ⟨k + 1, q, q', hq, hq', hnoLater, hsmaller⟩

/-- An entry that starts no later and keeps its form only gets smaller if it aligns. -/
theorem Cursor.align_of_smaller {c c' : Cursor} {e : Entry} {form : BranchForm} {n n' : Nat}
    (hoffset : c'.offset ≤ c.offset) (hmode : c'.mode = c.mode) (h : c.size e form = .ok n)
    (h' : c'.size e form = .ok n') (hlt : n' < n) : ∃ boundary, e = .align boundary := by
  cases e with
  | align boundary => exact ⟨boundary, rfl⟩
  | offset target =>
    simp only [size] at h h'
    split at h <;> cases h
    split at h' <;> cases h'
    omega
  | _ =>
    simp only [size, hmode] at h h'
    rw [h] at h'
    cases h'
    omega

/-! ## Jumps left near -/

/-- Between the two positions, an `align` directive takes fewer bytes in the second layout than in
the first. -/
def AlignShrinks (layout layout' : Layout) (i t : Nat) : Prop :=
  ∃ (j : Nat) (p p' : Place) (boundary : UInt32), i < j ∧ j < t ∧
    layout.places[j]? = some p ∧ layout'.places[j]? = some p' ∧
    p.entry = .align boundary ∧ p'.size < p.size

section

variable {code : Code} {index : LabelIndex} {forms : List BranchForm} {layout layout' : Layout}
  {i t : Nat}

/-- If what stands between a shortened jump and a later target takes less space, an `align`
directive does. -/
theorem alignShrinks_of_extent_lt (h : Layout.compute code forms = .ok layout)
    (h' : Layout.compute code (forms.set i .short) = .ok layout')
    (hshortens : Shortens code forms (forms.set i .short))
    (hlt : extent ((layout'.places.take t).drop (i + 1)) <
      extent ((layout.places.take t).drop (i + 1))) : AlignShrinks layout layout' i t := by
  obtain ⟨layout'', h'', hnoLater⟩ := Layout.compute_shortens hshortens h
  rw [h'] at h''
  cases h''
  obtain ⟨k, p, p', hp, hp', hle, hsmaller⟩ :=
    exists_smaller (List.forall₂_drop (i + 1) (List.forall₂_take t hnoLater)) hlt
  rw [List.getElem?_drop] at hp hp'
  have hk : i + 1 + k < t := by
    by_contra hge
    have hlength : (layout.places.take t).length ≤ i + 1 + k := by
      rw [List.length_take]
      omega
    rw [List.getElem?_eq_none hlength] at hp
    cases hp
  rw [List.getElem?_take_of_lt hk] at hp hp'
  -- Only the form of the entry at `i` has changed.
  have hform : p'.form = p.form := by
    have hforms := congrArg (·[i + 1 + k]?) (Layout.places_form h hshortens.length_left)
    have hforms' := congrArg (·[i + 1 + k]?) (Layout.places_form h' hshortens.length_right)
    simp only [Layout.forms, List.getElem?_map, hp, hp', Option.map_some] at hforms hforms'
    rw [List.getElem?_set_ne (by omega), ← hforms] at hforms'
    exact Option.some.inj hforms'
  have hsize := Layout.size_of_mem h (List.mem_of_getElem? hp)
  have hsize' := Layout.size_of_mem h' (List.mem_of_getElem? hp')
  rw [hle.entry, hform] at hsize'
  have hoffset : p'.cursor.offset ≤ p.cursor.offset := hle.offset_le
  obtain ⟨boundary, hboundary⟩ := Cursor.align_of_smaller hoffset hle.mode hsize hsize' hsmaller
  exact ⟨i + 1 + k, p, p', boundary, by omega, hk, hp, hp', hboundary, hsmaller⟩

theorem shortens_set_of_place (h : Layout.compute code forms = .ok layout)
    (hlength : forms.length = code.length) {p : Place} (hp : layout.places[i]? = some p)
    (hjump : p.entry.isShrinkable = true) (hnear : p.form = .near) :
    Shortens code forms (forms.set i .short) := by
  refine .set hlength (Layout.entry_of_getElem? h hp) hjump ?_
  rw [← Layout.places_form h hlength, Layout.forms, List.getElem?_map, hp, Option.map_some, hnear]

theorem place_set (h : Layout.compute code forms = .ok layout)
    (h' : Layout.compute code (forms.set i .short) = .ok layout')
    (hlength : forms.length = code.length) {p : Place} (hp : layout.places[i]? = some p)
    (hjump : p.entry.isShrinkable = true) :
    ∃ p', layout'.places[i]? = some p' ∧ p'.entry = p.entry ∧ p'.form = .short ∧
      p'.offset = p.offset ∧ p'.size = 2 := by
  obtain ⟨p', hp', hentry⟩ := Layout.place_of_getElem? h' (Layout.entry_of_getElem? h hp)
  have hlt : i < forms.length := by
    rw [hlength, ← Layout.places_length h]
    exact (List.getElem?_eq_some_iff.1 hp).1
  have hform : p'.form = .short := by
    have hforms := congrArg (·[i]?) (Layout.places_form h' (by rw [List.length_set, hlength]))
    simp only [Layout.forms, List.getElem?_map, hp', Option.map_some] at hforms
    rw [List.getElem?_set_self hlt] at hforms
    exact Option.some.inj hforms
  refine ⟨p', hp', hentry, hform, Layout.offset_set h h' le_rfl hp hp', ?_⟩
  cases he : p.entry with
  | instruction instr =>
    rw [he] at hjump hentry
    obtain ⟨name, hname⟩ := Instruction.branchTarget?_of_isShrinkable hjump
    have hsize := Place.length_instruction h' (List.mem_of_getElem? hp') hentry
    rw [hform, Instruction.length_branch hname,
      Instruction.branchLength_short (Instruction.isJump_of_isShrinkable hjump)] at hsize
    exact (Except.ok.inj hsize).symm
  | _ =>
    rw [he] at hjump
    cases hjump

theorem two_lt_size (h : Layout.compute code forms = .ok layout) {p : Place}
    (hp : p ∈ layout.places) (hjump : p.entry.isShrinkable = true) (hnear : p.form = .near) :
    2 < p.size := by
  cases he : p.entry with
  | instruction instr =>
    rw [he] at hjump
    obtain ⟨name, hname⟩ := Instruction.branchTarget?_of_isShrinkable hjump
    have hsize := Place.length_instruction h hp he
    rw [hnear, Instruction.length_branch hname] at hsize
    rw [← Except.ok.inj hsize]
    exact instr.two_lt_branchLength_near p.mode
  | _ =>
    rw [he] at hjump
    cases hjump

theorem target_of_distance? (h : Layout.compute code forms = .ok layout) {p : Place} {name : String}
    (hname : p.entry.branchTarget? = some name) {d : Int} (hd : layout.distance? p = some d) :
    ∃ t q, code.findIdx? (·.defines name) = some t ∧ layout.places[t]? = some q ∧
      d = q.offset - p.stop := by
  rw [Layout.distance?, hname, Option.bind_some,
    Layout.definition?_eq (Layout.places_entry h)] at hd
  obtain ⟨q, hq, hd⟩ := Option.map_eq_some_iff.1 hd
  obtain ⟨t, ht, hq⟩ := Option.bind_eq_some_iff.1 hq
  exact ⟨t, q, ht, hq, hd.symm⟩

theorem not_fits_of_reaches {r : Relaxed} (hcode : Linkable code index)
    (hr : Outcome code index 1 code.allNear r) {p : Place} (hp : r.layout.places[i]? = some p)
    (hjump : p.entry.isShrinkable = true) (hnear : p.form = .near)
    (hreaches : Reaches code (r.layout.forms.set i .short)) {name : String}
    (hname : p.entry.branchTarget? = some name) {q : Place}
    (hfind : code.findIdx? (·.defines name) = some t) (hq : r.layout.places[t]? = some q) :
    ¬FitsByte ((q.offset : Int) - ↑(if i < t then p.size - 2 else 0) - (p.offset + 2)) := by
  have hlocate := (Layout.locate_eq_ok_iff hcode.indexed).2 ⟨hfind, hq⟩
  intro hfits
  refine hr.stuck i (Layout.mem_candidates.2 ⟨p, hp, ?_⟩) hreaches
  simp only [Place.isCandidate, hnear, hjump, Entry.reference?_of_branchTarget? hname, hlocate,
    beq_self_eq_true, Bool.and_self, Bool.true_and]
  exact decide_eq_true hfits

theorem distance?_of_lt (h : Layout.compute code forms = .ok layout) (hit : i < t) {p : Place}
    (hp : layout.places[i]? = some p) {name : String} (hname : p.entry.branchTarget? = some name)
    (hfind : code.findIdx? (·.defines name) = some t) :
    layout.distance? p = some ↑(extent ((layout.places.take t).drop (i + 1))) := by
  have hlt : t < layout.places.length := by
    rw [Layout.places_length h]
    exact (List.findIdx?_eq_some_iff_getElem.1 hfind).1
  have hq : layout.places[t]? = some layout.places[t] := List.getElem?_eq_getElem hlt
  have hoffset := Layout.offset_eq_stop_add h hit hp hq
  rw [Layout.distance?, hname, Option.bind_some, Layout.definition?_eq (Layout.places_entry h),
    hfind, Option.bind_some, hq, Option.map_some, hoffset]
  congr 1
  omega

/-- The short jumps other than the one at the given position reach their targets. -/
def Layout.OthersReach (layout : Layout) (i : Nat) : Prop :=
  ∀ k p, k ≠ i → layout.places[k]? = some p → p.form = .short →
    ∃ d, layout.distance? p = some d ∧ FitsByte d

/-- The bytes that the entries between two positions take less in the second layout than in the
first. -/
def bytesSaved (layout layout' : Layout) (i t : Nat) : Int :=
  (extent ((layout.places.take t).drop (i + 1)) : Int) -
    extent ((layout'.places.take t).drop (i + 1))

/-- A jump that is left near has a later target, which is out of reach until an `align` directive
in between takes fewer bytes. -/
theorem alignShrinks_of_reaches {r : Relaxed} (hcode : Linkable code index)
    (hr : Outcome code index 1 code.allNear r) {p : Place} (hp : r.layout.places[i]? = some p)
    (hjump : p.entry.isShrinkable = true) (hnear : p.form = .near) {name : String}
    (hname : p.entry.branchTarget? = some name)
    (h' : Layout.compute code (r.layout.forms.set i .short) = .ok layout')
    (hreach : layout'.ShortsReach) :
    ∃ t d, code.findIdx? (·.defines name) = some t ∧ i < t ∧ r.layout.distance? p = some d ∧
      127 < d ∧ d - bytesSaved r.layout layout' i t ≤ 127 ∧ AlignShrinks r.layout layout' i t := by
  have h := hr.laidOut
  have hlength := hr.shortens.length_right
  obtain ⟨-, target, -, hd⟩ := hcode.locate_branch h (List.mem_of_getElem? hp) hname
  obtain ⟨t, q, hfind, hq, -⟩ := target_of_distance? h hname hd
  obtain ⟨p', hp', hentry, hform, hoffset, hsize⟩ := place_set h h' hlength hp hjump
  have hname' : p'.entry.branchTarget? = some name := by rw [hentry, hname]
  obtain ⟨d', hd', hfits⟩ := hreach p' (List.mem_of_getElem? hp') hform
  have hestimate := not_fits_of_reaches hcode hr hp hjump hnear ⟨layout', h', hreach⟩ hname
    hfind hq
  have hforward : i < t := by
    -- In front of the jump nothing moves, so that the estimate would be the distance.
    by_contra hbackward
    obtain ⟨t', q', hfind', hq', rfl⟩ := target_of_distance? h' hname' hd'
    rw [hfind] at hfind'
    cases hfind'
    have hstay := Layout.offset_set h h' (Nat.le_of_not_lt hbackward) hq hq'
    rw [FitsByte, Place.stop, hoffset, hsize] at hfits
    rw [if_neg hbackward, FitsByte] at hestimate
    omega
  have hlater := Layout.offset_eq_stop_add h hforward hp hq
  have hsaving := two_lt_size h (List.mem_of_getElem? hp) hjump hnear
  rw [distance?_of_lt h' hforward hp' hname' hfind] at hd'
  cases hd'
  rw [if_pos hforward, FitsByte] at hestimate
  simp only [Place.stop] at hlater
  have hfar : 127 < extent ((r.layout.places.take t).drop (i + 1)) := by omega
  have hclose : extent ((layout'.places.take t).drop (i + 1)) ≤ 127 := by
    exact_mod_cast hfits.2
  refine ⟨t, _, hfind, hforward, distance?_of_lt h hforward hp hname hfind, by exact_mod_cast hfar,
    ?_, ?_⟩
  · rw [bytesSaved]
    omega
  · exact alignShrinks_of_extent_lt h h' (shortens_set_of_place h hlength hp hjump hnear)
      (by omega)

/-- **A jump is left near needlessly only for padding**: a jump that is near at the end could be
short exactly if its target is later and more than 127 bytes from its end, but no more than that
with the bytes that `align` directives in between come to save, and if the other short jumps still
reach their targets. -/
theorem reaches_set_iff {r : Relaxed} (hindex : LabelIndex.build code = .ok index)
    (hrelax : relax code index = .ok r) {p : Place} (hp : r.layout.places[i]? = some p)
    (hjump : p.entry.isShrinkable = true) (hnear : p.form = .near) :
    Reaches code (r.layout.forms.set i .short) ↔
      ∃ layout' name t d, Layout.compute code (r.layout.forms.set i .short) = .ok layout' ∧
        layout'.OthersReach i ∧ p.entry.branchTarget? = some name ∧
        code.findIdx? (·.defines name) = some t ∧ i < t ∧ r.layout.distance? p = some d ∧
        127 < d ∧ d - bytesSaved r.layout layout' i t ≤ 127 ∧
        AlignShrinks r.layout layout' i t := by
  obtain ⟨hcode, hr⟩ := relax_outcome hindex hrelax
  have h := hr.laidOut
  constructor
  · rintro ⟨layout', h', hreach⟩
    obtain ⟨name, hname⟩ := Entry.branchTarget?_of_isShrinkable hjump
    obtain ⟨t, d, hrest⟩ := alignShrinks_of_reaches hcode hr hp hjump hnear hname h' hreach
    refine ⟨layout', name, t, d, h', ?_, hname, hrest⟩
    exact fun k p' _ hp' hshort => hreach p' (List.mem_of_getElem? hp') hshort
  · rintro ⟨layout', name, t, d, h', hothers, hname, hfind, hforward, hd, -, hclose, -⟩
    refine ⟨layout', h', fun p' hmem hshort => ?_⟩
    obtain ⟨k, hk⟩ := List.getElem?_of_mem hmem
    by_cases hki : k = i
    · subst hki
      obtain ⟨p'', hp'', hentry, -⟩ := place_set h h' hr.shortens.length_right hp hjump
      rw [hk] at hp''
      cases hp''
      have hname' : p'.entry.branchTarget? = some name := by rw [hentry, hname]
      rw [distance?_of_lt h hforward hp hname hfind] at hd
      cases hd
      rw [bytesSaved] at hclose
      exact ⟨_, distance?_of_lt h' hforward hk hname' hfind, by omega, by omega⟩
    · exact hothers k p' hki hk hshort

/-- A jump over 124 bytes and padding to a multiple of 16. The near jump ends at 5 and its target
is at 144; the short one would end at 2 with its target at 128. -/
def paddedJump : Code :=
  [.instruction ⟨.jmp, [.label "end"]⟩, .times 124 0x90, .align 16, .label "end"]

/-- What jump shrinking makes of the padded jump, in its only pass. -/
def paddedJumpRelaxed : Relaxed where
  layout := {
    places := [
      ⟨.instruction ⟨.jmp, [.label "end"]⟩, .near, 0, 0, .bits32, 5⟩,
      ⟨.times 124 0x90, .near, 5, 0, .bits32, 124⟩,
      ⟨.align 16, .near, 129, 0, .bits32, 15⟩,
      ⟨.label "end", .near, 144, 0, .bits32, 0⟩]
    stop := 144 }
  resolutions := [{ target := some 144 }, {}, {}, {}]
  passes := 1

theorem relax_paddedJump :
    relax paddedJump ⟨[⟨3, "end", "end"⟩]⟩ = .ok paddedJumpRelaxed := rfl

theorem reaches_paddedJump : Reaches paddedJump (paddedJumpRelaxed.layout.forms.set 0 .short) :=
  ⟨_, rfl, by decide⟩

/-- The padding behind the jump shrinks from 15 bytes to two if the jump is short. -/
theorem reaches_set_iff_padded :
    ∃ layout' t, Layout.compute paddedJump [.short, .near, .near, .near] = .ok layout' ∧
      AlignShrinks paddedJumpRelaxed.layout layout' 0 t := by
  obtain ⟨layout', name, t, d, h', -, -, -, -, -, -, -, hshrinks⟩ :=
    (reaches_set_iff rfl relax_paddedJump rfl rfl rfl).1 reaches_paddedJump
  exact ⟨layout', t, h', hshrinks⟩

/-- Jump shrinking leaves a jump near that could be short on its own. -/
theorem jump_shrinking_not_maximal :
    ¬∀ (code : Code) (index : LabelIndex) (r : Relaxed), LabelIndex.build code = .ok index →
      relax code index = .ok r → ∀ (i : Nat) (p : Place), r.layout.places[i]? = some p →
      p.entry.isShrinkable = true → p.form = .near →
      ¬Reaches code (r.layout.forms.set i .short) := by
  intro h
  exact h paddedJump _ paddedJumpRelaxed rfl relax_paddedJump 0 _ rfl rfl rfl reaches_paddedJump

end

end BootImage
