import BootImage.Proofs.Shrinking

/-!
# Convergence of jump shrinking

A pass either shortens a jump or is the last one, and no pass makes a jump near again. So the
passes come to an end before the budget does: there is one pass for every jump in the budget, and
one more to find that nothing is left to do.

* `formsAfter` — the forms after a number of passes.
* `Linkable.pass_spec` — what one pass does.
* `Outcome` — what a run of passes ends with; `Outcome.last`, `Outcome.step` — one pass more.
* `Linkable.relaxFrom_spec` — a run with enough passes in its budget ends so.
* `Linkable.relax_spec` — the run from the near forms on.
* `relax_outcome` — only a linkable stream comes through jump shrinking, and with that outcome.
-/

namespace BootImage

variable {code : Code} {index : LabelIndex} {forms : List BranchForm}

/-- The forms after the given number of passes. -/
def formsAfter (code : Code) (index : LabelIndex) : Nat → Except AssemblyError (List BranchForm)
  | 0 => .ok code.allNear
  | passes + 1 => do
    let forms ← formsAfter code index passes
    let layout ← Layout.compute code forms
    let (forms', _) ← shrink code index forms (layout.candidates index)
    pure forms'

theorem Linkable.reaches_allNear (hcode : Linkable code index) : Reaches code code.allNear := by
  obtain ⟨layout, hlayout⟩ := hcode.laysOut
  refine ⟨layout, hlayout, fun p hp hshort => ?_⟩
  have hmem : p.form ∈ layout.forms := List.mem_map_of_mem hp
  rw [Layout.places_form hlayout (Shortens.length_allNear code), hshort] at hmem
  simp [Code.allNear] at hmem

/-! ## One pass -/

/-- A pass lays out the stream, resolves every reference and shortens some of the candidates. -/
theorem Linkable.pass_spec (hcode : Linkable code index)
    (hforms : Shortens code code.allNear forms) :
    ∃ layout resolved forms' n, Layout.compute code forms = .ok layout ∧
      layout.resolutions index = .ok resolved ∧
      shrink code index forms (layout.candidates index) = .ok (forms', n) ∧
      Shrunk code forms (layout.candidates index) forms' n := by
  obtain ⟨layout, hlayout⟩ := hcode.compute hforms
  obtain ⟨resolved, hresolved⟩ := hcode.resolutions hlayout
  obtain ⟨forms', n, hshrink, hshrunk⟩ :=
    hcode.shrink_spec hforms (Layout.nearJumps_candidates hlayout hforms.length_right)
  exact ⟨layout, resolved, forms', n, hlayout, hresolved, hshrink, hshrunk⟩

theorem Linkable.formsAfter_spec (hcode : Linkable code index) (passes : Nat) :
    ∃ forms forms', formsAfter code index passes = .ok forms ∧
      formsAfter code index (passes + 1) = .ok forms' ∧
      Shortens code code.allNear forms ∧ Shortens code forms forms' := by
  induction passes with
  | zero =>
    have hnear : Shortens code code.allNear code.allNear := .refl (Shortens.length_allNear code)
    obtain ⟨layout, -, forms', n, hlayout, -, hshrink, hshrunk⟩ := hcode.pass_spec hnear
    refine ⟨code.allNear, forms', rfl, ?_, hnear, hshrunk.shortens⟩
    simp [formsAfter, hlayout, hshrink, pure, Except.pure]
  | succ passes ih =>
    obtain ⟨forms, forms', -, hforms', hnear, hshortens⟩ := ih
    have hnear' := hnear.trans hshortens
    obtain ⟨layout, -, forms'', n, hlayout, -, hshrink, hshrunk⟩ := hcode.pass_spec hnear'
    refine ⟨forms', forms'', hforms', ?_, hnear', hshrunk.shortens⟩
    rw [formsAfter, hforms']
    simp [hlayout, hshrink, pure, Except.pure]

/-! ## A run of passes -/

/-- What a run ends with that starts with `forms` in the pass with the number `pass`. -/
structure Outcome (code : Code) (index : LabelIndex) (pass : Nat) (forms : List BranchForm)
    (r : Relaxed) : Prop where
  laidOut : Layout.compute code r.layout.forms = .ok r.layout
  resolved : r.layout.resolutions index = .ok r.resolutions
  shortens : Shortens code forms r.layout.forms
  reaches : Reaches code forms → Reaches code r.layout.forms
  stuck : ∀ i ∈ r.layout.candidates index, ¬Reaches code (r.layout.forms.set i .short)
  pass_le : pass ≤ r.passes
  /-- Every pass but the last has shortened a jump. -/
  passes_le : r.passes + forms.count .short ≤ pass + r.layout.forms.count .short
  unchanged : r.passes = pass → r.layout.forms = forms
  reached : formsAfter code index (pass - 1) = .ok forms →
    formsAfter code index (r.passes - 1) = .ok r.layout.forms

theorem Outcome.last {layout : Layout} {resolved : List Resolution} {forms' : List BranchForm}
    (pass : Nat) (hlength : forms.length = code.length)
    (hlayout : Layout.compute code forms = .ok layout)
    (hresolved : layout.resolutions index = .ok resolved)
    (hshrunk : Shrunk code forms (layout.candidates index) forms' 0) :
    Outcome code index pass forms ⟨layout, resolved, pass⟩ := by
  have hforms : layout.forms = forms := Layout.places_form hlayout hlength
  constructor
  case laidOut => rw [hforms, hlayout]
  case resolved => exact hresolved
  case shortens => rw [hforms]; exact .refl hlength
  case reaches => rw [hforms]; exact id
  case stuck => rw [hforms]; exact hshrunk.stuck rfl
  case pass_le => exact le_rfl
  case passes_le => rw [hforms]
  case unchanged => exact fun _ => hforms
  case reached => rw [hforms]; exact id

/-- A pass that shortens something goes in front of the passes that follow it. -/
theorem Outcome.step {layout : Layout} {forms' : List BranchForm} {n pass : Nat} {r : Relaxed}
    (hpass : 1 ≤ pass) (hlayout : Layout.compute code forms = .ok layout)
    (hshrink : shrink code index forms (layout.candidates index) = .ok (forms', n))
    (hshrunk : Shrunk code forms (layout.candidates index) forms' n) (hn : n ≠ 0)
    (h : Outcome code index (pass + 1) forms' r) : Outcome code index pass forms r := by
  have hcount := hshrunk.count
  have hle := h.pass_le
  have hpasses := h.passes_le
  constructor
  case laidOut => exact h.laidOut
  case resolved => exact h.resolved
  case shortens => exact hshrunk.shortens.trans h.shortens
  case reaches => exact fun hreaches => h.reaches (hshrunk.reaches hreaches)
  case stuck => exact h.stuck
  case pass_le => omega
  case passes_le => omega
  case unchanged =>
    intro heq
    omega
  case reached =>
    intro hforms
    obtain ⟨k, rfl⟩ : ∃ k, pass = k + 1 := ⟨pass - 1, by omega⟩
    refine h.reached ?_
    rw [Nat.add_sub_cancel] at hforms ⊢
    rw [formsAfter, hforms]
    simp [hlayout, hshrink, pure, Except.pure]

/-- A run ends if its budget is more than the number of jumps left to shorten. -/
theorem Linkable.relaxFrom_spec (hcode : Linkable code index) {budget pass : Nat}
    (hpass : 1 ≤ pass) (hforms : Shortens code code.allNear forms)
    (hbudget : (code.filter Entry.isShrinkable).length < budget + forms.count .short) :
    ∃ r, relaxFrom code index pass forms budget = .ok r ∧ Outcome code index pass forms r := by
  -- By induction on the budget. It stays above the number of near jumps that are left, since
  -- every pass but the last shortens one.
  induction budget generalizing pass forms with
  | zero =>
    have hcount := hforms.count_le_shrinkable
    rw [Shortens.count_allNear] at hcount
    omega
  | succ budget ih =>
    obtain ⟨layout, resolved, forms', n, hlayout, hresolved, hshrink, hshrunk⟩ :=
      hcode.pass_spec hforms
    by_cases hn : n = 0
    · subst hn
      refine ⟨⟨layout, resolved, pass⟩, ?_,
        .last pass hforms.length_right hlayout hresolved hshrunk⟩
      simp [relaxFrom, hlayout, hresolved, hshrink, pure, Except.pure]
    · have hcount := hshrunk.count
      have hnext : 1 ≤ pass + 1 := by omega
      obtain ⟨r, hrun, hr⟩ := ih hnext (hforms.trans hshrunk.shortens) (by omega)
      refine ⟨r, ?_, hr.step hpass hlayout hshrink hshrunk hn⟩
      simp [relaxFrom, hlayout, hresolved, hshrink, hn, hrun]

theorem Linkable.relax_spec (hcode : Linkable code index) :
    ∃ r, relax code index = .ok r ∧ Outcome code index 1 code.allNear r :=
  hcode.relaxFrom_spec le_rfl (.refl (Shortens.length_allNear code))
    (Nat.lt_add_right _ (Nat.lt_succ_self _))

/-! ## Streams that come through jump shrinking -/

theorem closed_of_resolutions {layout : Layout} {resolved : List Resolution}
    (hindex : LabelIndex.build code = .ok index) (hentries : layout.places.map Place.entry = code)
    (h : layout.resolutions index = .ok resolved) : code.Closed := by
  have hlocated : ∀ {name : String} {position : Nat} {target : Place},
      layout.locate index name = .ok (position, target) → ∃ d ∈ code, d.defines name = true := by
    intro name position target hlocate
    obtain ⟨hfind, -⟩ := (Layout.locate_eq_ok_iff hindex).1 hlocate
    obtain ⟨hlt, hdef, -⟩ := List.findIdx?_eq_some_iff_getElem.1 hfind
    exact ⟨code[position], List.getElem_mem hlt, hdef⟩
  rintro e he name huse
  obtain ⟨p, hp, rfl⟩ : ∃ p ∈ layout.places, p.entry = e := List.mem_map.1 (hentries ▸ he)
  obtain ⟨r, hr⟩ := exists_mapM_eq_ok_iff.1 ⟨resolved, h⟩ p hp
  obtain ⟨target, htarget, hrest⟩ := bind_eq_ok.1 hr
  obtain ⟨symbol, hsymbol, -⟩ := bind_eq_ok.1 hrest
  rcases huse with ⟨kind, href⟩ | ⟨delta, href⟩
  · simp only [Place.resolveReference, href] at htarget
    obtain ⟨⟨position, q⟩, hlocate, -⟩ := bind_eq_ok.1 htarget
    exact hlocated hlocate
  · simp only [Place.resolveMemory, href] at hsymbol
    obtain ⟨⟨position, q⟩, hlocate, -⟩ := bind_eq_ok.1 hsymbol
    exact hlocated hlocate

theorem linkable_of_relax (hindex : LabelIndex.build code = .ok index) {r : Relaxed}
    (h : relax code index = .ok r) : Linkable code index := by
  unfold relax relaxFrom at h
  obtain ⟨layout, hlayout, hrest⟩ := bind_eq_ok.1 h
  obtain ⟨resolved, hresolved, -⟩ := bind_eq_ok.1 hrest
  exact {
    indexed := hindex
    closed := closed_of_resolutions hindex (Layout.places_entry hlayout) hresolved
    laysOut := ⟨layout, hlayout⟩ }

theorem relax_outcome (hindex : LabelIndex.build code = .ok index) {r : Relaxed}
    (h : relax code index = .ok r) :
    Linkable code index ∧ Outcome code index 1 code.allNear r := by
  have hcode := linkable_of_relax hindex h
  obtain ⟨r', hr', hrun⟩ := hcode.relax_spec
  rw [h] at hr'
  cases hr'
  exact ⟨hcode, hrun⟩

end BootImage
