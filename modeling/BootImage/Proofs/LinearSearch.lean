import BootImage.Label.Resolve
import BootImage.Proofs.Directives
import BootImage.Proofs.Linked

/-!
# Labels found by reading

Reading a stream up to the first definition of a label gives the place that the layout with near
branches gives, because the two run the same cursor. Reading stops at the definition: what stands
behind it is not looked at, so a layout error counts only in front of it. Jump shrinking then moves
a label to no later offset and keeps the origin it is under.

* `layFrom_append` — a stream is laid out behind the stream in front of it.
* `exists_of_layFrom_error` — a layout fails at one entry, and lays out everything in front of it.
* `resolveFrom_append` — reading goes on behind what does not define the label.
* `resolveFrom_of_findIdx?` — the label is where the entries in front of its definition end.
* `resolveLabel_agrees` — the three ways to find a label agree.
-/

namespace BootImage

theorem Code.allNear_append (front back : Code) :
    (front ++ back).allNear = front.allNear ++ back.allNear :=
  List.map_append

/-- The cursor behind a stream that has been laid out from the cursor `c` on. -/
def Layout.behind (layout : Layout) (c : Cursor) (code : Code) : Cursor where
  offset := layout.stop
  origin := code.originAfter c.origin
  mode := code.modeAfter c.mode

variable {c : Cursor} {code front back : Code} {name : String} {i : Nat}

namespace Layout

theorem layFrom_append {forms forms' : List BranchForm} (hlength : forms.length = front.length) :
    layFrom c (front ++ back) (forms ++ forms') = (do
      let first ← layFrom c front forms
      let rest ← layFrom (first.behind c front) back forms'
      pure { places := first.places ++ rest.places, stop := rest.stop }) := by
  -- By induction on the front, with the cursor at which what is left of it is read.
  induction front generalizing c forms with
  | nil =>
    obtain rfl := List.eq_nil_of_length_eq_zero hlength
    show layFrom c back forms' = layFrom c back forms' >>= fun rest => .ok rest
    cases layFrom c back forms' <;> rfl
  | cons e front ih =>
    cases forms with
    | nil => simp at hlength
    | cons form forms =>
      have hrest (c : Cursor) := ih (c := c) (Nat.succ.inj hlength)
      simp only [List.cons_append, layFrom, Cursor.advance, List.headD_cons, List.tail_cons, hrest]
      cases c.size e form with
      | error err => rfl
      | ok size =>
        simp only [ok_bind, pure, Except.pure]
        cases layFrom (c.past e size) front forms with
        | error err => rfl
        | ok first =>
          show (layFrom (first.behind (c.past e size) front) back forms' >>= _) >>= _ =
            layFrom (first.behind (c.past e size) front) back forms' >>= _
          cases layFrom (first.behind (c.past e size) front) back forms' <;> rfl

theorem layFrom_take {layout : Layout} (h : layFrom c code code.allNear = .ok layout) (i : Nat) :
    ∃ before rest, layFrom c (code.take i) (Code.allNear (code.take i)) = .ok before ∧
      layFrom (before.behind c (code.take i)) (code.drop i) (Code.allNear (code.drop i)) = .ok rest ∧
      layout = { places := before.places ++ rest.places, stop := rest.stop } := by
  rw [← List.take_append_drop i code, Code.allNear_append,
    layFrom_append (Shortens.length_allNear _)] at h
  obtain ⟨before, hbefore, h⟩ := bind_eq_ok.1 h
  obtain ⟨rest, hrest, h⟩ := bind_eq_ok.1 h
  exact ⟨before, rest, hbefore, hrest, (Except.ok.inj h).symm⟩

/-- A layout fails at the first entry that takes no size where it stands. -/
theorem exists_of_layFrom_error {err : AssemblyError}
    (h : layFrom c code code.allNear = .error err) :
    ∃ k e before, code[k]? = some e ∧
      layFrom c (code.take k) (Code.allNear (code.take k)) = .ok before ∧
      (before.behind c (code.take k)).size e .near = .error err := by
  induction code generalizing c with
  | nil => cases h
  | cons e code ih =>
    rcases layFrom_cons_eq_error.1 h with hsize | ⟨size, hsize, hrest⟩
    · exact ⟨0, e, ⟨[], c.offset⟩, rfl, rfl, hsize⟩
    · obtain ⟨k, e', before, he', hbefore, herror⟩ := ih hrest
      exact ⟨k + 1, e', _, he', layFrom_cons_eq_ok.2 ⟨size, before, hsize, hbefore, rfl⟩, herror⟩

end Layout

/-! ## Reading up to a definition -/

theorem resolveFrom_append {before : Layout}
    (hbefore : Layout.layFrom c front front.allNear = .ok before)
    (hfresh : ∀ e ∈ front, e.defines name = false) :
    resolveFrom c name (front ++ back) = resolveFrom (before.behind c front) name back := by
  induction front generalizing c before with
  | nil =>
    cases hbefore
    rfl
  | cons e front ih =>
    obtain ⟨he, hfront⟩ := List.forall_mem_cons.1 hfresh
    obtain ⟨size, rest, hsize, hrest, rfl⟩ := Layout.layFrom_cons_eq_ok.1 hbefore
    have hsize' : c.size e .near = .ok size := hsize
    rw [List.cons_append, resolveFrom, if_neg (by simp [he])]
    simp only [Cursor.advance, hsize', ok_bind, pure, Except.pure]
    have hbehind := ih hrest hfront
    exact hbehind

theorem fresh_take {k : Nat} (h : ∀ i, code.findIdx? (·.defines name) = some i → k ≤ i) :
    ∀ e ∈ code.take k, e.defines name = false := by
  rw [← List.findIdx?_eq_none_iff, List.findIdx?_take]
  cases hfind : code.findIdx? (·.defines name) with
  | none => rfl
  | some i =>
    have hle := h i hfind
    simp [Option.guard, hle]

theorem resolveFrom_of_findIdx? {before : Layout} (hfind : code.findIdx? (·.defines name) = some i)
    (hbefore : Layout.layFrom c (code.take i) (Code.allNear (code.take i)) = .ok before) :
    resolveFrom c name code = .ok (before.behind c (code.take i)).place := by
  obtain ⟨hlt, hdefines, -⟩ := List.findIdx?_eq_some_iff_getElem.1 hfind
  have hfresh : ∀ e ∈ code.take i, e.defines name = false := by
    apply fresh_take
    intro j hj
    rw [hfind] at hj
    exact (Option.some.inj hj).le
  conv_lhs => rw [← List.take_append_drop i code, List.drop_eq_getElem_cons hlt]
  rw [resolveFrom_append hbefore hfresh, resolveFrom, if_pos hdefines]

/-- Reading stops at an entry that takes no size, unless the label is defined up to there. -/
theorem resolveFrom_of_error {k : Nat} {e : Entry} {before : Layout} {err : AssemblyError}
    (he : code[k]? = some e)
    (hbefore : Layout.layFrom c (code.take k) (Code.allNear (code.take k)) = .ok before)
    (herror : (before.behind c (code.take k)).size e .near = .error err)
    (hbehind : ∀ i, code.findIdx? (·.defines name) = some i → k < i) :
    resolveFrom c name code = .error err := by
  obtain ⟨hlt, rfl⟩ := List.getElem?_eq_some_iff.1 he
  have hfresh := fresh_take fun i hi => (hbehind i hi).le
  have hentry : (code[k]).defines name = false :=
    fresh_take hbehind _ (List.mem_take_iff_getElem.2 ⟨k, by omega, rfl⟩)
  conv_lhs => rw [← List.take_append_drop k code, List.drop_eq_getElem_cons hlt]
  rw [resolveFrom_append hbefore hfresh, resolveFrom, if_neg (by simp [hentry])]
  simp [Cursor.advance, herror]

theorem resolveFrom_append_of_ok {place : LabelAddress} (h : resolveFrom c name code = .ok place)
    (more : Code) : resolveFrom c name (code ++ more) = .ok place := by
  induction code generalizing c with
  | nil => cases h
  | cons e code ih =>
    rw [List.cons_append]
    rw [resolveFrom] at h ⊢
    by_cases hdefines : e.defines name = true
    · rw [if_pos hdefines] at h ⊢
      exact h
    · rw [if_neg hdefines] at h ⊢
      obtain ⟨⟨size, next⟩, hnext, hrest⟩ := bind_eq_ok.1 h
      rw [hnext]
      exact ih hrest

/-! ## The layout with near branches -/

namespace Layout

variable {layout : Layout}

theorem labelAddress_of_layFrom {before : Layout} (h : layFrom c code code.allNear = .ok layout)
    (hbefore : layFrom c (code.take i) (Code.allNear (code.take i)) = .ok before)
    (hi : i < code.length) :
    ∃ p, layout.places[i]? = some p ∧
      p.labelAddress = (before.behind c (code.take i)).place := by
  obtain ⟨before', rest, hbefore', hrest, rfl⟩ := layFrom_take h i
  rw [hbefore] at hbefore'
  cases hbefore'
  have hlength : before.places.length = i := by
    rw [← List.length_map Place.entry, entries_layFrom hbefore, List.length_take_of_le hi.le]
  rw [List.drop_eq_getElem_cons hi] at hrest
  obtain ⟨size, rest', -, -, hcons⟩ := layFrom_cons_eq_ok.1 hrest
  obtain ⟨p, hp, haddress⟩ : ∃ p, rest.places[0]? = some p ∧
      p.labelAddress = (before.behind c (code.take i)).place := by
    rw [hcons]
    exact ⟨_, rfl, rfl⟩
  refine ⟨p, ?_, haddress⟩
  rw [List.getElem?_append_right hlength.le, hlength, Nat.sub_self]
  exact hp

theorem definition?_eq_none (hentries : layout.places.map Place.entry = code) :
    layout.definition? name = none ↔ ∀ e ∈ code, e.defines name = false := by
  rw [← hentries, definition?, List.find?_eq_none]
  simp

end Layout

theorem resolveLabel_of_layout {layout : Layout}
    (hlayout : Layout.compute code code.allNear = .ok layout) (name : String) :
    resolveLabel code name = (layout.definition? name).elim (.error (.undefinedLabel name))
      fun p => .ok p.labelAddress := by
  have hentries := Layout.places_entry hlayout
  cases hfind : code.findIdx? (·.defines name) with
  | none =>
    have hfresh := List.findIdx?_eq_none_iff.1 hfind
    rw [(Layout.definition?_eq_none hentries).2 hfresh, resolveLabel, ← List.append_nil code,
      resolveFrom_append hlayout hfresh]
    rfl
  | some i =>
    obtain ⟨hlt, -⟩ := List.findIdx?_eq_some_iff_getElem.1 hfind
    obtain ⟨before, -, hbefore, -⟩ := Layout.layFrom_take hlayout i
    obtain ⟨p, hp, haddress⟩ := Layout.labelAddress_of_layFrom hlayout hbefore hlt
    rw [Layout.definition?_eq hentries, hfind, Option.bind_some, hp, resolveLabel,
      resolveFrom_of_findIdx? hfind hbefore, ← haddress]
    rfl

/-! ## Images -/

theorem Outcome.forms_of_count {index : LabelIndex} {r : Relaxed}
    (h : Outcome code index 1 code.allNear r) (hcount : r.layout.forms.count .short = 0) :
    r.layout.forms = code.allNear := by
  have hpasses := h.passes_le
  have hfirst := h.pass_le
  rw [hcount, Shortens.count_allNear] at hpasses
  exact h.unchanged (by omega)

/-- A label of an image is the one that reading finds, moved to no later offset. -/
theorem label?_resolveLabel {marker : Option String} {image : Image}
    (himage : link code marker = .ok image) (name : String) :
    ((∃ place, image.label? name = some place) ↔ ∃ near, resolveLabel code name = .ok near) ∧
    ∀ place near, image.label? name = some place → resolveLabel code name = .ok near →
      place.offset ≤ near.offset ∧
      (place.address : Int) - place.offset = near.address - near.offset ∧
      (image.shrunk = 0 → place = near) := by
  obtain ⟨index, r, written, hindex, hrelax, -, hemit⟩ := link_eq_ok.1 himage
  obtain ⟨hcode, hr⟩ := relax_outcome hindex hrelax
  obtain ⟨near, hnear⟩ := hcode.laysOut
  -- Reading uses near branches, the image the settled forms: the label can only be earlier.
  obtain ⟨layout, hlayout, hnoLater⟩ := Layout.compute_shortens hr.shortens hnear
  rw [hr.laidOut] at hlayout
  cases hlayout
  have hentries := Layout.places_entry hr.laidOut
  rw [label?_of_emit hindex hentries hemit, resolveLabel_of_layout hnear]
  cases hdefinition : r.layout.definition? name with
  | none =>
    have hfresh := (Layout.definition?_eq_none hentries).1 hdefinition
    rw [(Layout.definition?_eq_none (Layout.places_entry hnear)).2 hfresh]
    simp
  | some q =>
    obtain ⟨p, hp, hle⟩ := Layout.definition?_noLater hnoLater hdefinition
    rw [hp]
    refine ⟨⟨fun _ => ⟨_, rfl⟩, fun _ => ⟨_, rfl⟩⟩, ?_⟩
    intro place resolved hplace hresolved
    cases hplace
    cases hresolved
    refine ⟨hle.offset_le, ?_, ?_⟩
    · simp [Place.labelAddress, Place.address, hle.origin]
    · intro hshrunk
      have hforms := hr.forms_of_count ((shrunk_of_emit hemit).symm.trans hshrunk)
      have hsame := hr.laidOut
      rw [hforms, hnear] at hsame
      cases hsame
      rw [hp] at hdefinition
      cases hdefinition
      rfl

/-- **The ways to find a label agree.** Reading a stream finds the place that the layout with near
branches gives to the first definition, also where the layout fails behind it, and gives the error
of the layout where it fails in front of it. What is appended changes nothing. A linked image has
the same labels at no later offsets, under the same origins, and at the same places if no jump is
short. -/
theorem resolveLabel_agrees (code : Code) (name : String) :
    (∀ layout, Layout.compute code code.allNear = .ok layout →
      (∀ i, code.findIdx? (·.defines name) = some i →
        ∃ p, layout.places[i]? = some p ∧ resolveLabel code name = .ok p.labelAddress) ∧
      (code.findIdx? (·.defines name) = none →
        resolveLabel code name = .error (.undefinedLabel name))) ∧
    (∀ err, Layout.compute code code.allNear = .error err →
      ∃ k e before, code[k]? = some e ∧
        Layout.compute (code.take k) (Code.allNear (code.take k)) = .ok before ∧
        (before.behind {} (code.take k)).size e .near = .error err ∧
        (∀ i, code.findIdx? (·.defines name) = some i → i ≤ k →
          ∃ front, Layout.compute (code.take i) (Code.allNear (code.take i)) = .ok front ∧
            resolveLabel code name = .ok (front.behind {} (code.take i)).place) ∧
        ((∀ i, code.findIdx? (·.defines name) = some i → k < i) →
          resolveLabel code name = .error err)) ∧
    (∀ place, resolveLabel code name = .ok place →
      ∀ more, resolveLabel (code ++ more) name = .ok place) ∧
    ∀ marker image, link code marker = .ok image →
      ((∃ place, image.label? name = some place) ↔ ∃ near, resolveLabel code name = .ok near) ∧
      ∀ place near, image.label? name = some place → resolveLabel code name = .ok near →
        place.offset ≤ near.offset ∧
        (place.address : Int) - place.offset = near.address - near.offset ∧
        (image.shrunk = 0 → place = near) := by
  refine ⟨?_, ?_, fun place => resolveFrom_append_of_ok, fun marker image himage =>
    label?_resolveLabel himage name⟩
  · intro layout hlayout
    constructor
    · intro i hfind
      obtain ⟨hlt, -⟩ := List.findIdx?_eq_some_iff_getElem.1 hfind
      -- Up to the definition, reading is laying out what stands in front of it.
      obtain ⟨before, -, hbefore, -⟩ := Layout.layFrom_take hlayout i
      obtain ⟨p, hp, haddress⟩ := Layout.labelAddress_of_layFrom hlayout hbefore hlt
      refine ⟨p, hp, ?_⟩
      rw [haddress]
      exact resolveFrom_of_findIdx? hfind hbefore
    · intro hfind
      have hfresh := List.findIdx?_eq_none_iff.1 hfind
      rw [resolveLabel_of_layout hlayout,
        (Layout.definition?_eq_none (Layout.places_entry hlayout)).2 hfresh]
      rfl
  · intro err herror
    obtain ⟨k, e, before, he, hbefore, hsize⟩ := Layout.exists_of_layFrom_error herror
    refine ⟨k, e, before, he, hbefore, hsize, ?_, resolveFrom_of_error he hbefore hsize⟩
    intro i hfind hle
    -- The label is found before reading comes to the entry that takes no size.
    obtain ⟨front, -, hfront, -⟩ := Layout.layFrom_take hbefore i
    rw [List.take_take, Nat.min_eq_left hle] at hfront
    exact ⟨front, hfront, resolveFrom_of_findIdx? hfind hfront⟩

/-- A label in front of an alignment that fails, and a label that moves when a jump becomes short. -/
theorem resolveLabel_agrees_moved :
    (∃ err k e, Layout.compute [.label "a", .align 0, .label "b"] [.near, .near, .near] =
        .error err ∧ [Entry.label "a", .align 0, .label "b"][k]? = some e ∧
      ∃ before : Layout, (before.behind {} ([Entry.label "a", .align 0, .label "b"].take k)).size e
        .near = .error err) ∧
    (∃ place, resolveLabel [.label "a", .align 0, .label "b"] "A" = .ok place ∧
      resolveLabel ([.label "a", .align 0, .label "b"] ++ [.label "A"]) "A" = .ok place) ∧
    ∃ image place near, link [.instruction ⟨.jmp, [.label "end"]⟩, .label "end"] none =
        .ok image ∧ image.label? "END" = some place ∧
      resolveLabel [.instruction ⟨.jmp, [.label "end"]⟩, .label "end"] "END" = .ok near ∧
      place.offset ≤ near.offset ∧ place.offset = 2 ∧ near.offset = 5 := by
  obtain ⟨-, hfails, happend, -⟩ :=
    resolveLabel_agrees [.label "a", .align 0, .label "b"] "A"
  obtain ⟨-, -, -, hlinks⟩ :=
    resolveLabel_agrees [.instruction ⟨.jmp, [.label "end"]⟩, .label "end"] "END"
  refine ⟨?_, ?_, ?_⟩
  · have herror : Layout.compute [.label "a", .align 0, .label "b"] [.near, .near, .near] =
        .error (.invalidAlignment 0) := rfl
    obtain ⟨k, e, before, he, -, hsize, -⟩ := hfails _ herror
    exact ⟨_, k, e, herror, he, before, hsize⟩
  · have hplace : resolveLabel [.label "a", .align 0, .label "b"] "A" = .ok ⟨0, 0⟩ := rfl
    exact ⟨_, hplace, happend _ hplace _⟩
  · obtain ⟨image, himage, hplace⟩ : ∃ image,
        link [.instruction ⟨.jmp, [.label "end"]⟩, .label "end"] none = .ok image ∧
          image.label? "END" = some ⟨2, 2⟩ := ⟨_, rfl, rfl⟩
    have hnear : resolveLabel [.instruction ⟨.jmp, [.label "end"]⟩, .label "end"] "END" =
        .ok ⟨5, 5⟩ := rfl
    exact ⟨_, _, _, himage, hplace, hnear, ((hlinks _ _ himage).2 _ _ hplace hnear).1, rfl, rfl⟩

end BootImage
