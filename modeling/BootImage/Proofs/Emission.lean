import BootImage.Proofs.Chunks

/-!
# Writing a settled stream

Once jump shrinking has settled, every label is resolved and every short jump reaches its target.
What can still go wrong is that a number does not fit its field, that a near branch is too far from
its target, or that nothing defines the label from which on space is only reserved.

* `Outcome.shortsReach` — short jumps reach their targets in the settled layout.
* `Layout.OutOfReach` — a near branch is too far from its target.
* `Outcome.error_of_chunk` — why an entry is refused.
* `error_of_emit`, `error_of_writtenEntries` — why writing fails.
* `error_of_link` — why linking fails once jump shrinking has ended.
-/

namespace BootImage

variable {code : Code} {index : LabelIndex} {r : Relaxed}

/-- A near branch is too far from its target for the field that its mode has. -/
structure Layout.OutOfReach (layout : Layout) (p : Place) (name : String) (d : Int) : Prop where
  near : p.form = .near
  target : p.entry.branchTarget? = some name
  distance : layout.distance? p = some d
  misses : ¬p.mode.width.Reaches d

/-! ## Settled layouts -/

namespace Outcome

theorem shortsReach (h : Outcome code index 1 code.allNear r) (hcode : Linkable code index) :
    r.layout.ShortsReach := by
  obtain ⟨layout, hlayout, hreach⟩ := h.reaches hcode.reaches_allNear
  rw [h.laidOut] at hlayout
  cases hlayout
  exact hreach

theorem isShrinkable_of_short (h : Outcome code index 1 code.allNear r) {p : Place}
    (hp : p ∈ r.layout.places) (hshort : p.form = .short) : p.entry.isShrinkable = true := by
  obtain ⟨i, hi⟩ := List.getElem?_of_mem hp
  have hform : r.layout.forms[i]? = some .short := by
    rw [Layout.forms, List.getElem?_map, hi, Option.map_some, hshort]
  exact h.shortens.isShrinkable_of_short (Layout.entry_of_getElem? h.laidOut hi) hform

theorem outOfReach (h : Outcome code index 1 code.allNear r) (hcode : Linkable code index)
    {p : Place} (hp : p ∈ r.layout.places) {i : Instruction} {name : String} {d : Int}
    (hi : p.entry = .instruction i) (hname : i.branchTarget? = some name)
    (hdistance : r.layout.distance? p = some d)
    (hmisses : ¬(i.mnemonic.distanceWidth p.form p.mode).Reaches d) :
    r.layout.OutOfReach p name d := by
  have htarget : p.entry.branchTarget? = some name := by rw [hi]; exact hname
  -- A short branch is a jump that shrinking has checked, so it cannot miss.
  cases hform : p.form with
  | near =>
    rw [hform] at hmisses
    exact ⟨hform, htarget, hdistance, hmisses⟩
  | short =>
    have hshrinkable := h.isShrinkable_of_short hp hform
    rw [hi] at hshrinkable
    obtain ⟨d', hd', hfits⟩ := h.shortsReach hcode p hp hform
    rw [hdistance] at hd'
    cases hd'
    rw [hform, Mnemonic.distanceWidth,
      if_pos (Instruction.isJump_of_isShrinkable hshrinkable)] at hmisses
    exact absurd (Width.reaches_byte.2 hfits) hmisses

theorem resolve_of_mem_zip (h : Outcome code index 1 code.allNear r) {p : Place}
    {resolution : Resolution} (hmem : (p, resolution) ∈ r.layout.places.zip r.resolutions) :
    p ∈ r.layout.places ∧ p.resolve index r.layout = .ok resolution :=
  ⟨(List.of_mem_zip hmem).1, List.forall₂_zip (mapM_eq_ok_iff.1 h.resolved) hmem⟩

/-- The chunks of a settled layout, place by place. -/
theorem chunks_of_mapM (h : Outcome code index 1 code.allNear r) {written : Nat}
    {chunks : List (List UInt8)}
    (hchunks : ((r.layout.places.zip r.resolutions).take written).mapM (fun x => x.1.chunk x.2) =
      .ok chunks) :
    List.Forall₂ (fun p chunk => p ∈ r.layout.places ∧ ∃ resolution,
      p.resolve index r.layout = .ok resolution ∧ p.chunk resolution = .ok chunk)
      (r.layout.places.take written) chunks := by
  have hlengths := (mapM_eq_ok_iff.1 h.resolved).length_eq
  -- A chunk is made from a place and the values of its labels, so both are taken side by side.
  have hplaces : r.layout.places.take written =
      ((r.layout.places.zip r.resolutions).take written).map Prod.fst := by
    rw [List.map_take, List.map_fst_zip hlengths.le]
  have hresolved : ∀ x ∈ (r.layout.places.zip r.resolutions).take written,
      x.1 ∈ r.layout.places ∧ x.1.resolve index r.layout = .ok x.2 :=
    fun x hx => h.resolve_of_mem_zip (List.mem_of_mem_take hx)
  rw [hplaces, List.forall₂_map_left_iff]
  refine ((List.forall₂_and_left _ _).2 ⟨hresolved, mapM_eq_ok_iff.1 hchunks⟩).imp ?_
  rintro x chunk ⟨⟨hp, hr⟩, hchunk⟩
  exact ⟨hp, x.2, hr, hchunk⟩

end Outcome

/-! ## Errors -/

theorem error_of_writtenEntries (hindex : LabelIndex.build code = .ok index)
    {marker : Option String} {err : AssemblyError}
    (h : writtenEntries code index marker = .error err) :
    ∃ name, marker = some name ∧ (∀ e ∈ code, e.defines name = false) ∧
      err = .undefinedLabel name := by
  cases marker with
  | none => cases h
  | some name =>
    simp only [writtenEntries, LabelIndex.require, LabelIndex.get?_build hindex] at h
    cases hfind : code.findIdx? (·.defines name) with
    | some position =>
      rw [hfind] at h
      cases h
    | none =>
      rw [hfind] at h
      cases h
      exact ⟨name, rfl, List.findIdx?_eq_none_iff.1 hfind, rfl⟩

/-- An entry of a settled layout is refused for a number, or as a near branch out of reach. -/
theorem Outcome.error_of_chunk (hcode : Linkable code index)
    (h : Outcome code index 1 code.allNear r) {p : Place} {resolution : Resolution}
    (hmem : (p, resolution) ∈ r.layout.places.zip r.resolutions) {err : AssemblyError}
    (hchunk : p.chunk resolution = .error err) :
    (∃ v bits, err = .immediateOverflow v bits) ∨
      ∃ name d, r.layout.OutOfReach p name d ∧
        err = .branchOutOfRange name d (2 ^ (p.mode.width.bits - 1) - 1) := by
  obtain ⟨hp, hresolve⟩ := h.resolve_of_mem_zip hmem
  rcases Place.error_of_chunk hcode.indexed h.laidOut hp hresolve hchunk with
    hoverflow | ⟨i, name, d, hi, hname, hdistance, hmisses, herr⟩
  · exact .inl hoverflow
  · have hout := h.outOfReach hcode hp hi hname hdistance hmisses
    refine .inr ⟨name, d, hout, ?_⟩
    rw [herr, hout.near]
    rfl

theorem error_of_emit (hcode : Linkable code index) (h : Outcome code index 1 code.allNear r)
    {written : Nat} {err : AssemblyError} (herror : emit code index r written = .error err) :
    (∃ v bits, err = .immediateOverflow v bits) ∨
      ∃ p ∈ r.layout.places, ∃ name d, r.layout.OutOfReach p name d ∧
        err = .branchOutOfRange name d (2 ^ (p.mode.width.bits - 1) - 1) := by
  rcases bind_eq_error.1 herror with hchunks | ⟨chunks, -, hok⟩
  · obtain ⟨⟨p, resolution⟩, hmem, hchunk⟩ := error_of_mapM hchunks
    have hzip := List.mem_of_mem_take hmem
    rcases h.error_of_chunk hcode hzip hchunk with hoverflow | ⟨name, d, hbranch⟩
    · exact .inl hoverflow
    · exact .inr ⟨p, (List.of_mem_zip hzip).1, name, d, hbranch⟩
  · cases hok

/-- Linking fails before jump shrinking, or because of a number, a near branch or the marker. -/
theorem error_of_link (hcode : Linkable code index) (hrelax : relax code index = .ok r)
    (h : Outcome code index 1 code.allNear r) {marker : Option String} {err : AssemblyError}
    (herror : link code marker = .error err) :
    (∃ v bits, err = .immediateOverflow v bits) ∨
      (∃ p ∈ r.layout.places, ∃ name d, r.layout.OutOfReach p name d ∧
        err = .branchOutOfRange name d (2 ^ (p.mode.width.bits - 1) - 1)) ∨
      ∃ name, marker = some name ∧ (∀ e ∈ code, e.defines name = false) ∧
        err = .undefinedLabel name := by
  simp only [link, hcode.indexed, hrelax, ok_bind] at herror
  rcases bind_eq_error.1 herror with hwritten | ⟨written, -, hemit⟩
  · exact .inr (.inr (error_of_writtenEntries hcode.indexed hwritten))
  · rcases error_of_emit hcode h hemit with hoverflow | hbranch
    · exact .inl hoverflow
    · exact .inr (.inl hbranch)

/-! ## Convergence -/

/-- **Jump shrinking converges.** If the labels of a stream are indexed and defined and the stream
lays out with every branch near, then jump shrinking ends. Forms only go from near to short, every
pass but the last shortens a jump, and short jumps reach their targets. Linking then fails only
because of a number that does not fit, a near branch out of reach, or an undefined marker. -/
theorem jump_shrinking_converges (hindex : LabelIndex.build code = .ok index)
    (hclosed : code.Closed) (hlayout : ∃ layout, Layout.compute code code.allNear = .ok layout) :
    ∃ r, relax code index = .ok r ∧ Layout.compute code r.layout.forms = .ok r.layout ∧
      (∀ passes, ∃ forms forms', formsAfter code index passes = .ok forms ∧
        formsAfter code index (passes + 1) = .ok forms' ∧ Shortens code forms forms') ∧
      formsAfter code index (r.passes - 1) = .ok r.layout.forms ∧
      r.passes ≤ r.layout.forms.count .short + 1 ∧
      r.passes ≤ (code.filter Entry.isShrinkable).length + 1 ∧
      (r.passes = 1 ↔ r.layout.forms.count .short = 0) ∧
      (∀ p ∈ r.layout.places, p.form = .short →
        ∃ d, r.layout.distance? p = some d ∧ -128 ≤ d ∧ d ≤ 127) ∧
      ∀ marker err, link code marker = .error err →
        (∃ v bits, err = .immediateOverflow v bits) ∨
        (∃ p ∈ r.layout.places, ∃ name d, r.layout.OutOfReach p name d ∧
          err = .branchOutOfRange name d (2 ^ (p.mode.width.bits - 1) - 1)) ∨
        ∃ name, marker = some name ∧ (∀ e ∈ code, e.defines name = false) ∧
          err = .undefinedLabel name := by
  have hcode : Linkable code index := ⟨hindex, hclosed, hlayout⟩
  obtain ⟨r, hrelax, hr⟩ := hcode.relax_spec
  -- Every pass but the last shortens a jump, and there are only so many of them.
  have hpasses := hr.passes_le
  have hfirst := hr.pass_le
  have hshort := hr.shortens.count_le_shrinkable
  rw [Shortens.count_allNear] at hpasses hshort
  refine ⟨r, hrelax, hr.laidOut, fun passes => ?_, hr.reached rfl, by omega, by omega, ?_,
    hr.shortsReach hcode, fun marker err herror => error_of_link hcode hrelax hr herror⟩
  · obtain ⟨forms, forms', hforms, hforms', -, hshortens⟩ := hcode.formsAfter_spec passes
    exact ⟨forms, forms', hforms, hforms', hshortens⟩
  · constructor
    · intro hone
      rw [hr.unchanged hone, Shortens.count_allNear]
    · intro hzero
      omega

/-- A jump to itself is shortened in the first of two passes. -/
theorem jump_shrinking_converges_loop :
    ∃ r, relax [.label "a", .instruction ⟨.jmp, [.label "a"]⟩] ⟨[⟨0, "a", "a"⟩]⟩ = .ok r ∧
      r.passes ≤ 2 := by
  have hindex : LabelIndex.build [.label "a", .instruction ⟨.jmp, [.label "a"]⟩] =
      .ok ⟨[⟨0, "a", "a"⟩]⟩ := rfl
  have hlayout : Layout.compute [.label "a", .instruction ⟨.jmp, [.label "a"]⟩] [.near, .near] =
      .ok _ := rfl
  have hclosed := closed_of_resolutions hindex (Layout.places_entry hlayout) rfl
  obtain ⟨r, hr, -, -, -, -, hpasses, -⟩ := jump_shrinking_converges hindex hclosed ⟨_, hlayout⟩
  exact ⟨r, hr, hpasses⟩

end BootImage
