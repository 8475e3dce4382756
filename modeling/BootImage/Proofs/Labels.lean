import BootImage.Image
import BootImage.Proofs.Checked

/-!
# What a label means

A label means the first entry of the stream that defines it, up to letter case. The index, the
look-up in a layout and the label table of an image are three ways to find that entry, and agree.

* `Layout.definition?` — the place of the entry that a label means.
* `exists_build_iff` — labels are indexed if no spelling is defined twice.
* `get?_build` — the index holds the position of that entry.
* `locate_eq_ok_iff` — a layout's look-up through the index finds its place.
* `find?_ofLayout` — the label table of an image holds where it is.
* `Code.Closed` — every label that a stream refers to means one of its entries.
-/

namespace BootImage

open Text

/-- The place of the first entry that defines a name. -/
def Layout.definition? (layout : Layout) (name : String) : Option Place :=
  layout.places.find? (·.entry.defines name)

/-- Whether an entry refers to a label. -/
def Entry.Uses (e : Entry) (name : String) : Prop :=
  (∃ kind, e.reference? = some ⟨name, kind⟩) ∨ ∃ delta, e.memoryLabel? = some (name, delta)

/-- Every label that an entry of the stream refers to is defined by an entry of the stream. -/
def Code.Closed (code : Code) : Prop :=
  ∀ e ∈ code, ∀ name, e.Uses name → ∃ d ∈ code, d.defines name = true

/-! ## The index -/

namespace LabelIndex

theorem definitions_build {code : Code} {index : LabelIndex} (h : build code = .ok index) :
    index.definitions = definitionsFrom 0 code := by
  simp only [build] at h
  split at h <;> cases h
  rfl

theorem defines_of_label? {e : Entry} {label : String} (h : e.label? = some label)
    (name : String) : e.defines name = (foldCase label == foldCase name) := by
  simp [Entry.defines, h, sameName]

theorem find?_definitionsFrom (code : Code) (position : Nat) (name : String) :
    ((definitionsFrom position code).find? (·.key == foldCase name)).map Definition.position =
      (code.findIdx? (·.defines name)).map (· + position) := by
  induction code generalizing position with
  | nil => rfl
  | cons e code ih =>
    have hshift : (fun i => i + 1 + position) = (· + (position + 1)) := by
      funext i
      omega
    rw [definitionsFrom, List.findIdx?_cons]
    cases he : e.label? with
    | none =>
      have hdef : e.defines name = false := by simp [Entry.defines, he]
      simp [hdef, ih, Option.map_map, Function.comp_def, hshift]
    | some label =>
      rw [List.find?_cons, defines_of_label? he]
      cases foldCase label == foldCase name with
      | true => simp
      | false => simp [ih, Option.map_map, Function.comp_def, hshift]

theorem position_lt_of_mem {code : Code} {position : Nat} {d : Definition}
    (h : d ∈ definitionsFrom position code) : d.position < position + code.length := by
  induction code generalizing position with
  | nil => cases h
  | cons e code ih =>
    have hrest (hd : d ∈ definitionsFrom (position + 1) code) :
        d.position < position + (e :: code).length := by
      have := ih hd
      simp only [List.length_cons]
      omega
    simp only [definitionsFrom] at h
    split at h
    · rcases List.mem_cons.1 h with rfl | hd
      · simp
      · exact hrest hd
    · exact hrest h

/-- The index finds the first entry that defines a name. -/
theorem get?_build {code : Code} {index : LabelIndex} (h : build code = .ok index)
    (name : String) : index.get? name = code.findIdx? (·.defines name) := by
  have hfind := find?_definitionsFrom code 0 name
  simp only [get?, find?, definitions_build h, hfind]
  simp

/-! ### Repeated definitions -/

theorem names_definitionsFrom (code : Code) (position : Nat) :
    (definitionsFrom position code).map Definition.name = code.filterMap Entry.label? := by
  induction code generalizing position with
  | nil => rfl
  | cons e code ih =>
    rw [definitionsFrom, List.filterMap_cons]
    cases e.label? with
    | none => exact ih (position + 1)
    | some name =>
      dsimp only
      rw [List.map_cons, ih]

theorem firstRepeat?_eq_none_iff {seen ds : List Definition} :
    firstRepeat? seen ds = none ↔
      (∀ d ∈ ds, ∀ s ∈ seen, s.name ≠ d.name) ∧ (ds.map Definition.name).Nodup := by
  induction ds generalizing seen with
  | nil => simp [firstRepeat?]
  | cons d ds ih =>
    rw [firstRepeat?, List.map_cons, List.nodup_cons, List.forall_mem_cons]
    cases hfind : seen.find? (·.name == d.name) with
    | some first =>
      have hfirst : first.name = d.name := by simpa using List.find?_some hfind
      have hmem := List.mem_of_find?_eq_some hfind
      simp only [reduceCtorEq, false_iff]
      rintro ⟨⟨hd, -⟩, -⟩
      exact hd first hmem hfirst
    | none =>
      have hd : ∀ s ∈ seen, s.name ≠ d.name := by simpa using hfind
      simp only [ih, List.forall_mem_cons, List.mem_map, not_exists, not_and]
      constructor
      · rintro ⟨hseen, hnodup⟩
        exact ⟨⟨hd, fun d' hd' => (hseen d' hd').2⟩, fun d' hd' => (hseen d' hd').1.symm, hnodup⟩
      · rintro ⟨⟨-, hseen⟩, hfresh, hnodup⟩
        exact ⟨fun d' hd' => ⟨Ne.symm (hfresh d' hd'), hseen d' hd'⟩, hnodup⟩

/-- The labels of a stream are indexed if no spelling is defined twice. -/
theorem exists_build_iff {code : Code} :
    (∃ index, build code = .ok index) ↔ (code.filterMap Entry.label?).Nodup := by
  have hnone : firstRepeat? [] (definitionsFrom 0 code) = none ↔
      (code.filterMap Entry.label?).Nodup := by
    rw [firstRepeat?_eq_none_iff, names_definitionsFrom]
    simp
  rw [← hnone, build]
  cases firstRepeat? [] (definitionsFrom 0 code) with
  | none => simp
  | some found => simp

theorem error_of_build {code : Code} {err : AssemblyError} (h : build code = .error err) :
    ∃ name first second, err = .duplicateLabel name first second := by
  simp only [build] at h
  split at h <;> cases h
  exact ⟨_, _, _, rfl⟩

theorem require_eq_ok_iff {index : LabelIndex} {name : String} {position : Nat} :
    index.require name = .ok position ↔ index.get? name = some position := by
  unfold require
  cases index.get? name <;> simp

end LabelIndex

/-! ## The layout -/

namespace Layout

variable {code : Code} {index : LabelIndex} {layout : Layout}

/-- The place of the first defining entry stands at that entry's position. -/
theorem definition?_eq (hentries : layout.places.map Place.entry = code) (name : String) :
    layout.definition? name =
      (code.findIdx? (·.defines name)).bind (layout.places[·]?) := by
  rw [← hentries, List.findIdx?_map]
  exact List.find?_eq_bind_findIdx?_getElem?

/-- A label is located at the first entry that defines it. -/
theorem locate_eq_ok_iff (hindex : LabelIndex.build code = .ok index) {name : String}
    {position : Nat} {target : Place} :
    layout.locate index name = .ok (position, target) ↔
      code.findIdx? (·.defines name) = some position ∧ layout.places[position]? = some target := by
  unfold locate
  rw [LabelIndex.get?_build hindex]
  cases hfind : code.findIdx? (·.defines name) with
  | none => simp
  | some k =>
    dsimp only
    constructor
    · intro h
      split at h <;> cases h
      exact ⟨rfl, ‹_›⟩
    · rintro ⟨hk, hplace⟩
      cases hk
      rw [hplace]

/-- The look-up through the index is the look-up of the first defining entry. -/
theorem locate_ok_iff_definition? (hindex : LabelIndex.build code = .ok index)
    (hentries : layout.places.map Place.entry = code) {name : String} {target : Place} :
    (∃ position, layout.locate index name = .ok (position, target)) ↔
      layout.definition? name = some target := by
  simp only [locate_eq_ok_iff hindex, definition?_eq hentries, Option.bind_eq_some_iff]

end Layout

/-! ## The label table of an image -/

namespace LabelIndex

theorem mem_firstOfKey {ds : List Definition} {d : Definition} (h : d ∈ firstOfKey ds) :
    d ∈ ds := by
  induction ds with
  | nil => exact h
  | cons d' ds ih =>
    rcases List.mem_cons.1 h with rfl | hmem
    · exact List.mem_cons_self
    · exact List.mem_cons_of_mem _ (ih (List.mem_of_mem_filter hmem))

theorem nodup_key_firstOfKey (ds : List Definition) :
    (firstOfKey ds).Pairwise fun d d' => d.key ≠ d'.key := by
  induction ds with
  | nil => exact .nil
  | cons d ds ih =>
    refine List.pairwise_cons.2 ⟨fun d' hd' => ?_, ih.filter _⟩
    have hne : d'.key ≠ d.key := by simpa using (List.mem_filter.1 hd').2
    exact hne.symm

theorem find?_firstOfKey (ds : List Definition) (key : String) :
    (firstOfKey ds).find? (·.key == key) = ds.find? (·.key == key) := by
  induction ds with
  | nil => rfl
  | cons d ds ih =>
    rw [firstOfKey, List.find?_cons, List.find?_cons]
    cases hd : d.key == key with
    | true => rfl
    | false =>
      dsimp only
      rw [List.find?_filter, ← ih]
      congr 1
      funext d'
      -- A definition with the key that is looked for is not one that the filter drops.
      by_cases hkey : d'.key = key
      · have hne : key ≠ d.key := fun heq => by simp [← heq] at hd
        simp [hkey, hne]
      · simp [hkey]

end LabelIndex

namespace LabelTable

theorem find?_insertSorted {label : ImageLabel} {labels : List ImageLabel}
    (h : ∀ l ∈ labels, l.key ≠ label.key) (key : String) :
    (insertSorted label labels).find? (·.key == key) =
      if label.key = key then some label else labels.find? (·.key == key) := by
  induction labels with
  | nil => by_cases hkey : label.key = key <;> simp [insertSorted, hkey]
  | cons l labels ih =>
    obtain ⟨hl, hrest⟩ := List.forall_mem_cons.1 h
    rw [insertSorted]
    split
    · by_cases hkey : label.key = key <;> simp [hkey]
    · rw [List.find?_cons, ih hrest, List.find?_cons]
      by_cases hkey : label.key = key
      · have hne : (l.key == key) = false := by simpa [hkey] using hl
        simp only [hne, if_pos hkey]
      · rw [if_neg hkey, if_neg hkey]

theorem mem_insertSorted {label l : ImageLabel} {labels : List ImageLabel} :
    l ∈ insertSorted label labels ↔ l = label ∨ l ∈ labels := by
  induction labels with
  | nil => simp [insertSorted]
  | cons l' labels ih =>
    rw [insertSorted]
    split
    · simp
    · simp only [List.mem_cons, ih]
      tauto

/-- The labels of a layout for a list of definitions, in the order of their keys. -/
def ofDefinitions (layout : Layout) (ds : List Definition) : List ImageLabel :=
  ds.foldr (fun d labels =>
    match layout.places[d.position]? with
    | some p => insertSorted { key := d.key, name := d.name, place := p.labelAddress } labels
    | none => labels) []

theorem mem_ofDefinitions {layout : Layout} {ds : List Definition} {l : ImageLabel}
    (h : l ∈ ofDefinitions layout ds) : ∃ d ∈ ds, d.key = l.key := by
  induction ds with
  | nil => cases h
  | cons d ds ih =>
    have hrest (hl : l ∈ ofDefinitions layout ds) : ∃ d' ∈ d :: ds, d'.key = l.key := by
      obtain ⟨d', hd', hkey⟩ := ih hl
      exact ⟨d', List.mem_cons_of_mem _ hd', hkey⟩
    simp only [ofDefinitions, List.foldr_cons] at h
    split at h
    · rcases mem_insertSorted.1 h with rfl | hl
      · exact ⟨d, List.mem_cons_self, rfl⟩
      · exact hrest hl
    · exact hrest h

theorem find?_ofDefinitions (layout : Layout) {ds : List Definition}
    (hkeys : ds.Pairwise fun d d' => d.key ≠ d'.key)
    (hplaces : ∀ d ∈ ds, d.position < layout.places.length) (key : String) :
    ((ofDefinitions layout ds).find? (·.key == key)).map ImageLabel.place =
      ((ds.find? (·.key == key)).bind (layout.places[·.position]?)).map Place.labelAddress := by
  induction ds with
  | nil => rfl
  | cons d ds ih =>
    obtain ⟨hd, hds⟩ := List.pairwise_cons.1 hkeys
    obtain ⟨hlt, hlts⟩ := List.forall_mem_cons.1 hplaces
    -- The keys are distinct, so it does not matter that the label is sorted in.
    have hfresh : ∀ l ∈ ofDefinitions layout ds, l.key ≠ d.key := fun l hl => by
      obtain ⟨d', hd', hkey⟩ := mem_ofDefinitions hl
      exact fun heq => hd d' hd' (heq.symm.trans hkey.symm)
    have hcons : ofDefinitions layout (d :: ds) = insertSorted
        { key := d.key, name := d.name, place := layout.places[d.position].labelAddress }
        (ofDefinitions layout ds) := by
      simp only [ofDefinitions, List.foldr_cons, List.getElem?_eq_getElem hlt]
    rw [hcons, find?_insertSorted hfresh, List.find?_cons]
    by_cases hkey : d.key = key
    · simp [hkey, hlt]
    · have hne : (d.key == key) = false := by simpa using hkey
      rw [if_neg hkey, hne, ih hds hlts]

/-- The label table holds where the first entry is that defines a name. -/
theorem find?_ofLayout {code : Code} {index : LabelIndex} {layout : Layout}
    (hindex : LabelIndex.build code = .ok index) (hentries : layout.places.map Place.entry = code)
    (name : String) :
    (LabelTable.ofLayout index layout).find? name =
      (layout.definition? name).map Place.labelAddress := by
  have hplaces : ∀ d ∈ LabelIndex.firstOfKey index.definitions,
      d.position < layout.places.length := fun d hd => by
    have hmem := LabelIndex.mem_firstOfKey hd
    rw [LabelIndex.definitions_build hindex] at hmem
    have hlt := LabelIndex.position_lt_of_mem hmem
    rw [← hentries, List.length_map] at hlt
    omega
  have hfind := LabelIndex.find?_definitionsFrom code 0 name
  calc (LabelTable.ofLayout index layout).find? name
      = ((ofDefinitions layout (LabelIndex.firstOfKey index.definitions)).find?
          (·.key == foldCase name)).map ImageLabel.place := rfl
    _ = ((index.definitions.find? (·.key == foldCase name)).bind
          (layout.places[·.position]?)).map Place.labelAddress := by
        rw [find?_ofDefinitions layout (LabelIndex.nodup_key_firstOfKey _) hplaces,
          LabelIndex.find?_firstOfKey]
    _ = (layout.definition? name).map Place.labelAddress := by
        rw [Layout.definition?_eq hentries, LabelIndex.definitions_build hindex]
        simp only [Nat.add_zero, Option.map_id'] at hfind
        rw [← hfind, Option.bind_map]
        rfl

end LabelTable

end BootImage
