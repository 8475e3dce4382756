import BootImage.Proofs.Labels
import BootImage.Proofs.Shortening

/-!
# What one pass shortens

Every choice of forms that shortens jumps of a linkable stream lays out, so the checks of a pass
never fail; they say whether every short jump reaches its target. A pass keeps that property of
the forms, adds one short jump for each that it counts, and counts none only if each of its
candidates, shortened alone, would put some short jump out of reach.

* `Linkable` — what is asked of a stream: its labels are indexed and defined, and it lays out.
* `Layout.ShortsReach` — every short jump reaches its target.
* `shortsReach_eq_ok` — the check of the pass decides it.
* `Shrunk` — what a pass does to the forms; `shrink_spec` — a pass does it.
-/

namespace BootImage

/-- The label that a branch goes to. -/
def Entry.branchTarget? : Entry → Option String
  | instruction i => i.branchTarget?
  | _ => none

namespace Layout

/-- The bytes from the end of a branch to its target. -/
def distance? (layout : Layout) (p : Place) : Option Int :=
  p.entry.branchTarget?.bind fun name =>
    (layout.definition? name).map fun target => (target.offset : Int) - p.stop

/-- Every short jump reaches its target with a signed byte. -/
def ShortsReach (layout : Layout) : Prop :=
  ∀ p ∈ layout.places, p.form = .short → ∃ d, layout.distance? p = some d ∧ FitsByte d

instance (layout : Layout) : Decidable layout.ShortsReach :=
  decidable_of_iff
    (∀ p ∈ layout.places, p.form = .short → (layout.distance? p).any (decide <| FitsByte ·) = true)
    (by simp only [ShortsReach, Option.any_eq_true, decide_eq_true_eq])

end Layout

theorem find?_noLater {places places' : List Place}
    (h : List.Forall₂ Place.NoLater places' places) {name : String} {q' : Place}
    (hq' : places'.find? (·.entry.defines name) = some q') :
    ∃ q, places.find? (·.entry.defines name) = some q ∧ q'.NoLater q := by
  induction h with
  | nil => cases hq'
  | @cons p' p _ _ hp _ ih =>
    rw [List.find?_cons, hp.entry] at hq'
    rw [List.find?_cons]
    cases hdefines : p.entry.defines name with
    | true =>
      rw [hdefines] at hq'
      cases hq'
      exact ⟨p, rfl, hp⟩
    | false =>
      rw [hdefines] at hq'
      exact ih hq'

/-- A label of a shortened stream is defined by the same entry, at no later offset. -/
theorem Layout.definition?_noLater {layout layout' : Layout}
    (h : List.Forall₂ Place.NoLater layout'.places layout.places) {name : String} {q' : Place}
    (hq' : layout'.definition? name = some q') :
    ∃ q, layout.definition? name = some q ∧ q'.NoLater q :=
  find?_noLater h hq'

/-- Under these forms the stream lays out with every short jump in reach of its target. -/
def Reaches (code : Code) (forms : List BranchForm) : Prop :=
  ∃ layout, Layout.compute code forms = .ok layout ∧ layout.ShortsReach

/-- The stream has an index, defines all the labels it refers to, and lays out. -/
structure Linkable (code : Code) (index : LabelIndex) : Prop where
  indexed : LabelIndex.build code = .ok index
  closed : code.Closed
  laysOut : ∃ layout, Layout.compute code code.allNear = .ok layout

/-! ## References -/

theorem Entry.reference?_of_branchTarget? {e : Entry} {name : String}
    (h : e.branchTarget? = some name) : e.reference? = some ⟨name, .relative⟩ := by
  cases e with
  | instruction i =>
    simp only [branchTarget?] at h
    simp [reference?, h]
  | _ => cases h

theorem Entry.branchTarget?_of_isShrinkable {e : Entry} (h : e.isShrinkable = true) :
    ∃ name, e.branchTarget? = some name := by
  cases e with
  | instruction i => exact Instruction.branchTarget?_of_isShrinkable h
  | _ => cases h

namespace Linkable

variable {code : Code} {index : LabelIndex} {forms : List BranchForm} {layout : Layout}

theorem locate (hcode : Linkable code index) (hlayout : Layout.compute code forms = .ok layout)
    {p : Place} (hp : p ∈ layout.places) {name : String} (huse : p.entry.Uses name) :
    ∃ position target, layout.locate index name = .ok (position, target) ∧
      layout.definition? name = some target := by
  have hentries := Layout.places_entry hlayout
  have hentry : p.entry ∈ code := hentries ▸ List.mem_map_of_mem hp
  obtain ⟨d, hd, hdef⟩ := hcode.closed _ hentry _ huse
  obtain ⟨q, hq, rfl⟩ : ∃ q ∈ layout.places, q.entry = d := List.mem_map.1 (hentries ▸ hd)
  obtain ⟨target, htarget⟩ : ∃ target, layout.definition? name = some target :=
    Option.isSome_iff_exists.1 (List.find?_isSome.2 ⟨q, hq, hdef⟩)
  obtain ⟨position, hlocate⟩ :=
    (Layout.locate_ok_iff_definition? hcode.indexed hentries).2 htarget
  exact ⟨position, target, hlocate, htarget⟩

/-- The target of a branch is located, and its distance known. -/
theorem locate_branch (hcode : Linkable code index)
    (hlayout : Layout.compute code forms = .ok layout) {p : Place} (hp : p ∈ layout.places)
    {name : String} (hname : p.entry.branchTarget? = some name) :
    ∃ position target, layout.locate index name = .ok (position, target) ∧
      layout.distance? p = some ((target.offset : Int) - p.stop) := by
  obtain ⟨position, target, hlocate, htarget⟩ := hcode.locate hlayout hp
    (.inl ⟨_, Entry.reference?_of_branchTarget? hname⟩)
  exact ⟨position, target, hlocate, by simp [Layout.distance?, hname, htarget]⟩

theorem compute (hcode : Linkable code index) (hforms : Shortens code code.allNear forms) :
    ∃ layout, Layout.compute code forms = .ok layout := by
  obtain ⟨near, hnear⟩ := hcode.laysOut
  obtain ⟨layout, hlayout, -⟩ := Layout.compute_shortens hforms hnear
  exact ⟨layout, hlayout⟩

theorem resolutions (hcode : Linkable code index)
    (hlayout : Layout.compute code forms = .ok layout) :
    ∃ resolved, layout.resolutions index = .ok resolved := by
  refine exists_mapM_eq_ok_iff.2 fun p hp => ?_
  have htarget : ∃ target, p.resolveReference index layout = .ok target := by
    unfold Place.resolveReference
    cases href : p.entry.reference? with
    | none => exact ⟨none, rfl⟩
    | some ref =>
      obtain ⟨position, target, hlocate, -⟩ := hcode.locate hlayout hp (.inl ⟨_, href⟩)
      cases hkind : ref.kind <;> simp [hlocate, hkind, pure, Except.pure]
  have hsymbol : ∃ symbol, p.resolveMemory index layout = .ok symbol := by
    unfold Place.resolveMemory
    cases href : p.entry.memoryLabel? with
    | none => exact ⟨none, rfl⟩
    | some ref =>
      obtain ⟨position, target, hlocate, -⟩ := hcode.locate hlayout hp (.inr ⟨_, href⟩)
      simp [hlocate, pure, Except.pure]
  obtain ⟨target, htarget⟩ := htarget
  obtain ⟨symbol, hsymbol⟩ := hsymbol
  exact ⟨⟨target, symbol⟩, by simp [Place.resolve, htarget, hsymbol, pure, Except.pure]⟩

/-! ## The check that short jumps reach -/

theorem reaches_eq_ok (hcode : Linkable code index)
    (hlayout : Layout.compute code forms = .ok layout) {p : Place} (hp : p ∈ layout.places)
    (hshort : p.form = .short → p.entry.isShrinkable = true) :
    ∃ b, p.reaches index layout = .ok b ∧
      (b = true ↔ (p.form = .short → ∃ d, layout.distance? p = some d ∧ FitsByte d)) := by
  unfold Place.reaches
  cases hform : p.form with
  | near => exact ⟨true, rfl, by simp⟩
  | short =>
    obtain ⟨name, hname⟩ := Entry.branchTarget?_of_isShrinkable (hshort hform)
    obtain ⟨position, target, hlocate, hdistance⟩ := hcode.locate_branch hlayout hp hname
    simp [Entry.reference?_of_branchTarget? hname, hlocate, hdistance, pure, Except.pure]

theorem allReach_eq_ok {places : List Place} {reach : Place → Prop}
    (h : ∀ p ∈ places, ∃ b, p.reaches index layout = .ok b ∧ (b = true ↔ reach p)) :
    ∃ b, layout.allReach index places = .ok b ∧ (b = true ↔ ∀ p ∈ places, reach p) := by
  induction places with
  | nil => exact ⟨true, rfl, by simp⟩
  | cons p places ih =>
    obtain ⟨⟨b, hb, hreach⟩, hrest⟩ := List.forall_mem_cons.1 h
    obtain ⟨b', hb', hreaches⟩ := ih hrest
    rw [List.forall_mem_cons, ← hreach, ← hreaches]
    cases b with
    | false => exact ⟨false, by simp [Layout.allReach, hb, pure, Except.pure], by simp⟩
    | true => exact ⟨b', by simp [Layout.allReach, hb, hb'], by simp⟩

/-- The check of a pass decides whether every short jump reaches its target. -/
theorem shortsReach_eq_ok (hcode : Linkable code index)
    (hforms : Shortens code code.allNear forms) :
    ∃ b, shortsReach code index forms = .ok b ∧ (b = true ↔ Reaches code forms) := by
  obtain ⟨layout, hlayout⟩ := hcode.compute hforms
  have hreach : ∀ p ∈ layout.places, ∃ b, p.reaches index layout = .ok b ∧
      (b = true ↔ (p.form = .short → ∃ d, layout.distance? p = some d ∧ FitsByte d)) := by
    intro p hp
    refine hcode.reaches_eq_ok hlayout hp fun hshort => ?_
    obtain ⟨i, hi⟩ := List.getElem?_of_mem hp
    refine hforms.isShrinkable_of_short (Layout.entry_of_getElem? hlayout hi) ?_
    rw [← Layout.places_form hlayout hforms.length_right, Layout.forms, List.getElem?_map, hi,
      Option.map_some, hshort]
  obtain ⟨b, hb, hall⟩ := allReach_eq_ok hreach
  refine ⟨b, by simp [shortsReach, hlayout, hb], hall.trans ⟨fun h => ⟨layout, hlayout, h⟩, ?_⟩⟩
  rintro ⟨layout', hlayout', h⟩
  rw [hlayout] at hlayout'
  cases hlayout'
  exact h

end Linkable

/-! ## Shortening the candidates -/

/-- The positions are those of different jumps that are still near. -/
structure NearJumps (code : Code) (forms : List BranchForm) (positions : List Nat) : Prop where
  nodup : positions.Nodup
  near : ∀ i ∈ positions, forms[i]? = some .near
  jump : ∀ i ∈ positions, ∃ e, code[i]? = some e ∧ e.isShrinkable = true

namespace NearJumps

variable {code : Code} {forms : List BranchForm} {i : Nat} {positions : List Nat}

theorem tail (h : NearJumps code forms (i :: positions)) : NearJumps code forms positions where
  nodup := (List.nodup_cons.1 h.nodup).2
  near := fun j hj => h.near j (List.mem_cons_of_mem _ hj)
  jump := fun j hj => h.jump j (List.mem_cons_of_mem _ hj)

/-- Shortening one of the jumps leaves the others near. -/
theorem tail_set (h : NearJumps code forms (i :: positions)) :
    NearJumps code (forms.set i .short) positions where
  nodup := h.tail.nodup
  near := fun j hj => by
    have hne : i ≠ j := fun heq => (List.nodup_cons.1 h.nodup).1 (heq ▸ hj)
    rw [List.getElem?_set_ne hne]
    exact h.tail.near j hj
  jump := h.tail.jump

theorem shortens_set (h : NearJumps code forms positions) (hi : i ∈ positions)
    (hlength : forms.length = code.length) : Shortens code forms (forms.set i .short) := by
  obtain ⟨e, he, hshrinkable⟩ := h.jump i hi
  exact .set hlength he hshrinkable (h.near i hi)

theorem count_set (h : NearJumps code forms positions) (hi : i ∈ positions) :
    (forms.set i .short).count .short = forms.count .short + 1 := by
  obtain ⟨hlt, hform⟩ := List.getElem?_eq_some_iff.1 (h.near i hi)
  rw [List.count_set hlt, hform]
  rfl

end NearJumps

/-- `forms'` is what a pass makes of `forms`: it shortens `n` of the jumps at the given positions,
and none only if each of them alone puts a short jump out of reach. -/
structure Shrunk (code : Code) (forms : List BranchForm) (positions : List Nat)
    (forms' : List BranchForm) (n : Nat) : Prop where
  shortens : Shortens code forms forms'
  count : forms'.count .short = forms.count .short + n
  reaches : Reaches code forms → Reaches code forms'
  stuck : n = 0 → ∀ i ∈ positions, ¬Reaches code (forms.set i .short)

namespace Linkable

variable {code : Code} {index : LabelIndex} {forms : List BranchForm} {positions : List Nat}

theorem shrinkEach_spec (hcode : Linkable code index) (hforms : Shortens code code.allNear forms)
    (hpositions : NearJumps code forms positions) :
    ∃ forms' n, shrinkEach code index forms positions = .ok (forms', n) ∧
      Shrunk code forms positions forms' n := by
  -- By induction on the candidates left. The forms are carried: they shorten the near ones, and
  -- the jumps still to come are near under them.
  induction positions generalizing forms with
  | nil => exact ⟨forms, 0, rfl, .refl hforms.length_right, rfl, id, by simp⟩
  | cons i positions ih =>
    have hset := hpositions.shortens_set List.mem_cons_self hforms.length_right
    obtain ⟨b, hb, hreach⟩ := hcode.shortsReach_eq_ok (hforms.trans hset)
    cases b with
    | true =>
      obtain ⟨forms', n, heach, hshrunk⟩ := ih (hforms.trans hset) hpositions.tail_set
      refine ⟨forms', n + 1, by simp [shrinkEach, hb, heach, pure, Except.pure], ?_⟩
      exact {
        shortens := hset.trans hshrunk.shortens
        count := by rw [hshrunk.count, hpositions.count_set List.mem_cons_self]; omega
        reaches := fun _ => hshrunk.reaches (hreach.1 rfl)
        stuck := fun h => by omega }
    -- The jump would not reach, or would strand another short one, and stays near.
    | false =>
      obtain ⟨forms', n, heach, hshrunk⟩ := ih hforms hpositions.tail
      refine ⟨forms', n, by simp [shrinkEach, hb, heach], ?_⟩
      exact {
        shortens := hshrunk.shortens
        count := hshrunk.count
        reaches := hshrunk.reaches
        stuck := fun h => List.forall_mem_cons.2
          ⟨fun hi => absurd (hreach.2 hi) (by simp), hshrunk.stuck h⟩ }

theorem shortenAll_spec (hforms : forms.length = code.length)
    (hpositions : NearJumps code forms positions) :
    Shortens code forms (positions.foldl (fun forms i => forms.set i .short) forms) ∧
      (positions.foldl (fun forms i => forms.set i .short) forms).count .short =
        forms.count .short + positions.length := by
  induction positions generalizing forms with
  | nil => exact ⟨.refl hforms, rfl⟩
  | cons i positions ih =>
    have hset := hpositions.shortens_set List.mem_cons_self hforms
    obtain ⟨hshortens, hcount⟩ := ih hset.length_right hpositions.tail_set
    refine ⟨hset.trans hshortens, ?_⟩
    rw [List.foldl_cons, hcount, hpositions.count_set List.mem_cons_self, List.length_cons]
    omega

/-- A pass succeeds, and shortens what it counts. -/
theorem shrink_spec (hcode : Linkable code index) (hforms : Shortens code code.allNear forms)
    (hpositions : NearJumps code forms positions) :
    ∃ forms' n, shrink code index forms positions = .ok (forms', n) ∧
      Shrunk code forms positions forms' n := by
  cases hempty : positions.isEmpty with
  | true =>
    obtain rfl := List.isEmpty_iff.1 hempty
    exact ⟨forms, 0, rfl, .refl hforms.length_right, rfl, id, by simp⟩
  | false =>
    obtain ⟨hshortens, hcount⟩ := shortenAll_spec hforms.length_right hpositions
    obtain ⟨b, hb, hreach⟩ := hcode.shortsReach_eq_ok (hforms.trans hshortens)
    cases b with
    -- All candidates at once.
    | true =>
      refine ⟨positions.foldl (fun forms i => forms.set i .short) forms, positions.length,
        by simp [shrink, hempty, hb, pure, Except.pure], ?_⟩
      refine ⟨hshortens, hcount, fun _ => hreach.1 rfl, fun hzero => ?_⟩
      obtain rfl := List.eq_nil_of_length_eq_zero hzero
      cases hempty
    -- One would not reach, so they are tried one by one.
    | false =>
      obtain ⟨forms', n, heach, hshrunk⟩ := hcode.shrinkEach_spec hforms hpositions
      exact ⟨forms', n, by simp [shrink, hempty, hb, heach], hshrunk⟩

end Linkable

/-! ## The candidates -/

namespace Layout

variable {index : LabelIndex} {layout : Layout}

theorem mem_candidatesFrom {places : List Place} {position i : Nat} :
    i ∈ layout.candidatesFrom index position places ↔
      ∃ k p, i = position + k ∧ places[k]? = some p ∧
        p.isCandidate i index layout = true := by
  induction places generalizing position with
  | nil => simp [candidatesFrom]
  | cons p places ih =>
    have hrest : i ∈ layout.candidatesFrom index (position + 1) places ↔
        ∃ k q, i = position + (k + 1) ∧ (p :: places)[k + 1]? = some q ∧
          q.isCandidate i index layout = true := by
      rw [ih]
      simp only [List.getElem?_cons_succ, Nat.add_assoc, Nat.add_comm 1]
    -- The candidate is the first place, or one behind it.
    rw [← Nat.or_exists_add_one, ← hrest, candidatesFrom]
    have hhead : (∃ q, i = position + 0 ∧ (p :: places)[0]? = some q ∧
          q.isCandidate i index layout = true) ↔
        i = position ∧ p.isCandidate position index layout = true := by
      constructor
      · rintro ⟨_, rfl, ⟨⟩, hcandidate⟩
        exact ⟨rfl, hcandidate⟩
      · rintro ⟨rfl, hcandidate⟩
        exact ⟨p, rfl, rfl, hcandidate⟩
    rw [hhead]
    split <;> simp [*]

theorem nodup_candidatesFrom (places : List Place) (position : Nat) :
    (layout.candidatesFrom index position places).Nodup := by
  induction places generalizing position with
  | nil => exact .nil
  | cons p places ih =>
    rw [candidatesFrom]
    split
    · refine List.nodup_cons.2 ⟨fun hmem => ?_, ih _⟩
      obtain ⟨k, q, hk, -⟩ := mem_candidatesFrom.1 hmem
      omega
    · exact ih _

theorem mem_candidates {i : Nat} :
    i ∈ layout.candidates index ↔
      ∃ p, layout.places[i]? = some p ∧ p.isCandidate i index layout = true := by
  simp [candidates, mem_candidatesFrom]

/-- The candidates of a pass are jumps that are still near. -/
theorem nearJumps_candidates {code : Code} {forms : List BranchForm}
    (hlayout : compute code forms = .ok layout) (hlength : forms.length = code.length) :
    NearJumps code forms (layout.candidates index) := by
  refine ⟨nodup_candidatesFrom _ _, fun i hi => ?_, fun i hi => ?_⟩
  all_goals
    obtain ⟨p, hp, hcandidate⟩ := mem_candidates.1 hi
    simp only [Place.isCandidate, Bool.and_eq_true, beq_iff_eq] at hcandidate
  · rw [← places_form hlayout hlength, Layout.forms, List.getElem?_map, hp, Option.map_some,
      hcandidate.1.1]
  · exact ⟨p.entry, entry_of_getElem? hlayout hp, hcandidate.1.2⟩

end Layout

end BootImage
