import BootImage.Proofs.Linked

/-!
# Streams that correspond

Two streams correspond when their entries, one by one, take the same space, set the same mode, are
jumps or not, write the same bytes for the same values of their labels, and refer to definitions at
the same positions. Jump shrinking then does the same on both: no size, no candidate and no decision
to keep a shrink depends on an address or on how a name is spelled. Addresses have a say only in
what is written, and only where one is. What the streams fail with is compared by a relation on
errors, so that errors that name different labels can count as the same.

* `Entry.Corresponds`, `Place.Corresponds`, `Layout.Corresponds` — what has to agree.
* `layFrom_alike` — the streams are laid out alike.
* `shrink_alike` — a pass shortens the same jumps.
* `relaxFrom_alike` — a run of passes ends alike; `relax_alike` — so does jump shrinking.
* `emit_alike` — the streams are written alike, if the labels have the same values.
* `link_alike` — they are linked alike, if origins agree where an address is written.
-/

namespace BootImage

variable (E : AssemblyError → AssemblyError → Prop) (index index' : LabelIndex)

/-- Two names of labels that are defined at the same position, or not at all. -/
structure SameTarget (name name' : String) : Prop where
  position : index'.get? name' = index.get? name
  undefined : E (.undefinedLabel name) (.undefinedLabel name')

/-- Two entries that do the same to the layout and the bytes of their streams. -/
structure Entry.Corresponds (e e' : Entry) : Prop where
  size : ∀ (c c' : Cursor) (form : BranchForm), c'.offset = c.offset → c'.mode = c.mode →
    Alike E Eq (c.size e form) (c'.size e' form)
  mode : ∀ mode, e'.modeAfter mode = e.modeAfter mode
  shrinkable : e'.isShrinkable = e.isShrinkable
  reference : Option.Rel
    (fun ref ref' => ref'.kind = ref.kind ∧ SameTarget E index index' ref.label ref'.label)
    e.reference? e'.reference?
  memory : Option.Rel
    (fun ref ref' => ref'.2 = ref.2 ∧ SameTarget E index index' ref.1 ref'.1)
    e.memoryLabel? e'.memoryLabel?
  chunk : ∀ (p : Place) (r : Resolution),
    Alike E Eq ({ p with entry := e }.chunk r) ({ p with entry := e' }.chunk r)

/-- Two places of the same extent, in the same mode and form. -/
structure Place.SameSpace (p p' : Place) : Prop where
  form : p'.form = p.form
  offset : p'.offset = p.offset
  mode : p'.mode = p.mode
  size : p'.size = p.size

/-- Two entries that correspond, in places that are the same but for the origin. -/
structure Place.Corresponds (p p' : Place) : Prop extends p.SameSpace p' where
  entry : p.entry.Corresponds E index index' p'.entry

structure Layout.Corresponds (layout layout' : Layout) : Prop where
  places : List.Forall₂ (Place.Corresponds E index index') layout.places layout'.places
  stop : layout'.stop = layout.stop

/-- Whether an address is written for the entry, other than as the distance to a label. -/
def Entry.UsesAddress (e : Entry) : Prop :=
  e.reference?.any (·.kind == .absolute) = true ∨ e.memoryLabel?.isSome = true

instance (e : Entry) : Decidable e.UsesAddress :=
  inferInstanceAs (Decidable (_ ∨ _))

/-- Two runs of jump shrinking that take as many passes and end in layouts that correspond. -/
structure Relaxed.Corresponds (r r' : Relaxed) : Prop where
  layout : r.layout.Corresponds E index index' r'.layout
  passes : r'.passes = r.passes

variable {E index index'} {code code' : Code} {layout layout' : Layout} {p p' : Place}

theorem Cursor.size_congr {c c' : Cursor} (hoffset : c'.offset = c.offset)
    (hmode : c'.mode = c.mode) (e : Entry) (form : BranchForm) :
    c'.size e form = c.size e form := by
  cases e <;> simp only [Cursor.size, hoffset, hmode]

theorem Entry.corresponds_self (hE : ∀ err, E err err) (e : Entry) :
    e.Corresponds E index index e := by
  refine ⟨?_, fun _ => rfl, rfl, ?_, ?_, fun _ _ => .refl hE _⟩
  · intro c c' form hoffset hmode
    rw [Cursor.size_congr hoffset hmode]
    exact .refl hE _
  · cases e.reference? with
    | none => exact .none
    | some ref => exact .some ⟨rfl, rfl, hE _⟩
  · cases e.memoryLabel? with
    | none => exact .none
    | some ref => exact .some ⟨rfl, rfl, hE _⟩

theorem Layout.Corresponds.forms (h : layout.Corresponds E index index' layout') :
    layout'.forms = layout.forms :=
  forall₂_map_eq_iff.1 (h.places.imp fun _ _ hp => hp.form)

theorem Layout.Corresponds.sizes (h : layout.Corresponds E index index' layout') :
    layout'.places.map Place.size = layout.places.map Place.size :=
  forall₂_map_eq_iff.1 (h.places.imp fun _ _ hp => hp.size)

theorem Place.Corresponds.stop (hp : p.Corresponds E index index' p') : p'.stop = p.stop := by
  rw [Place.stop, Place.stop, hp.offset, hp.size]

/-! ## Layouts -/

theorem layFrom_alike (hcode : List.Forall₂ (Entry.Corresponds E index index') code code')
    {c c' : Cursor} (hoffset : c'.offset = c.offset) (hmode : c'.mode = c.mode)
    (forms : List BranchForm) :
    Alike E (Layout.Corresponds E index index') (Layout.layFrom c code forms)
      (Layout.layFrom c' code' forms) := by
  -- By induction on the two streams. The cursors agree in offset and mode; their origins may
  -- differ, and no size depends on those.
  induction hcode generalizing c c' forms with
  | nil => exact .ok ⟨.nil, hoffset⟩
  | @cons e e' code code' he _ ih =>
    have hadvance : Alike E
        (fun x x' => x'.1 = x.1 ∧ x'.2.offset = x.2.offset ∧ x'.2.mode = x.2.mode)
        (c.advance e (forms.headD .near)) (c'.advance e' (forms.headD .near)) := by
      apply (he.size c c' _ hoffset hmode).bind
      rintro size _ rfl
      refine .ok ⟨rfl, ?_, ?_⟩
      · show c'.offset + size = c.offset + size
        rw [hoffset]
      · show e'.modeAfter c'.mode = e.modeAfter c.mode
        rw [hmode, he.mode]
    apply hadvance.bind
    rintro ⟨size, next⟩ ⟨_, next'⟩ ⟨rfl, hnext, hnextMode⟩
    apply (ih hnext hnextMode forms.tail).bind
    intro rest rest' hrest
    refine .ok ⟨.cons ⟨⟨rfl, hoffset, ?_, rfl⟩, he⟩ hrest.places, hrest.stop⟩
    show e'.modeAfter c'.mode = e.modeAfter c.mode
    rw [hmode, he.mode]

theorem compute_alike (hcode : List.Forall₂ (Entry.Corresponds E index index') code code')
    (forms : List BranchForm) :
    Alike E (Layout.Corresponds E index index') (Layout.compute code forms)
      (Layout.compute code' forms) :=
  layFrom_alike hcode rfl rfl forms

/-! ## References -/

/-- Two layouts with the same origin at every entry. -/
def Layout.SameOrigins (layout layout' : Layout) : Prop :=
  List.Forall₂ (fun p p' => p'.origin = p.origin) layout.places layout'.places

section References

variable (hlayout : layout.Corresponds E index index' layout')
include hlayout

/-- The places at one position correspond, and have the same address if the origins agree. -/
theorem rel_places (position : Nat) :
    Option.Rel (fun p p' => p.Corresponds E index index' p' ∧
        (layout.SameOrigins layout' → p'.address = p.address))
      layout.places[position]? layout'.places[position]? := by
  rcases rel_iff.1 (rel_getElem? hlayout.places position) with
    ⟨hp, hp'⟩ | ⟨p, p', hp, hp', hcorresponds⟩
  · rw [hp, hp']
    exact .none
  · rw [hp, hp']
    refine .some ⟨hcorresponds, fun horigins => ?_⟩
    have horigin := rel_getElem? horigins position
    rw [hp, hp', Option.rel_some_some] at horigin
    rw [Place.address, Place.address, horigin, hcorresponds.offset]

theorem locate_alike {name name' : String} (hname : SameTarget E index index' name name') :
    Alike E (fun found found' => found'.1 = found.1 ∧
        found.2.Corresponds E index index' found'.2 ∧
        (layout.SameOrigins layout' → found'.2.address = found.2.address))
      (layout.locate index name) (layout'.locate index' name') := by
  unfold Layout.locate
  rw [hname.position]
  cases index.get? name with
  | none => exact .error hname.undefined
  | some position =>
    dsimp only
    rcases rel_iff.1 (rel_places hlayout position) with ⟨hp, hp'⟩ | ⟨p, p', hp, hp', hcorresponds⟩
    · rw [hp, hp']
      exact .error hname.undefined
    · rw [hp, hp']
      exact .ok ⟨rfl, hcorresponds⟩

theorem resolveReference_alike (hp : p.Corresponds E index index' p') :
    Alike E
      (fun target target' => (p.entry.UsesAddress → layout.SameOrigins layout') → target' = target)
      (p.resolveReference index layout) (p'.resolveReference index' layout') := by
  unfold Place.resolveReference
  rcases rel_iff.1 hp.entry.reference with
    ⟨href, href'⟩ | ⟨⟨name, kind⟩, ⟨name', kind'⟩, href, href', hkind, hname⟩
  · rw [href, href']
    exact .ok fun _ => rfl
  · rw [href, href']
    apply (locate_alike hlayout hname).bind
    rintro ⟨_, target⟩ ⟨_, target'⟩ ⟨-, htarget, haddress⟩
    obtain rfl : kind' = kind := hkind
    -- A branch wants the offset of its target, anything else the address.
    cases kind' with
    | relative =>
      apply Alike.ok
      intro _
      rw [htarget.offset]
    | absolute =>
      apply Alike.ok
      intro hsame
      rw [haddress (hsame (.inl (by rw [href]; rfl)))]

/-- The labels in memory operands are resolved alike, and to the same value if the origins agree. -/
theorem resolveMemory_alike (hp : p.Corresponds E index index' p') :
    Alike E
      (fun symbol symbol' => (p.entry.UsesAddress → layout.SameOrigins layout') → symbol' = symbol)
      (p.resolveMemory index layout) (p'.resolveMemory index' layout') := by
  unfold Place.resolveMemory
  rcases rel_iff.1 hp.entry.memory with ⟨href, href'⟩ | ⟨ref, ref', href, href', hdelta, hname⟩
  · rw [href, href']
    exact .ok fun _ => rfl
  · rw [href, href']
    apply (locate_alike hlayout hname).bind
    rintro ⟨_, target⟩ ⟨_, target'⟩ ⟨-, -, haddress⟩
    apply Alike.ok
    intro hsame
    rw [hdelta, haddress (hsame (.inr (by rw [href]; rfl)))]

theorem resolve_alike (hp : p.Corresponds E index index' p') :
    Alike E (fun r r' => (p.entry.UsesAddress → layout.SameOrigins layout') → r' = r)
      (p.resolve index layout) (p'.resolve index' layout') := by
  apply (resolveReference_alike hlayout hp).bind
  intro target target' htarget
  apply (resolveMemory_alike hlayout hp).bind
  intro symbol symbol' hsymbol
  apply Alike.ok
  intro hsame
  rw [htarget hsame, hsymbol hsame]

theorem isCandidate_eq (hp : p.Corresponds E index index' p') (position : Nat) :
    p'.isCandidate position index' layout' = p.isCandidate position index layout := by
  unfold Place.isCandidate
  rw [hp.form, hp.entry.shrinkable, hp.size, hp.offset]
  congr 1
  rcases rel_iff.1 hp.entry.reference with ⟨href, href'⟩ | ⟨ref, ref', href, href', -, hname⟩
  · rw [href, href']
  · rw [href, href']
    have hfound := locate_alike hlayout hname
    dsimp only
    generalize layout.locate index ref.label = found, layout'.locate index' ref'.label = found'
      at hfound ⊢
    cases hfound with
    | error _ => rfl
    | ok hfound =>
      obtain ⟨hposition, htarget, -⟩ := hfound
      dsimp only
      rw [hposition, htarget.offset]

theorem candidatesFrom_eq {places places' : List Place}
    (hplaces : List.Forall₂ (Place.Corresponds E index index') places places') (position : Nat) :
    layout'.candidatesFrom index' position places' =
      layout.candidatesFrom index position places := by
  induction hplaces generalizing position with
  | nil => rfl
  | cons hp _ ih =>
    simp only [Layout.candidatesFrom, isCandidate_eq hlayout hp, ih]

theorem candidates_eq : layout'.candidates index' = layout.candidates index :=
  candidatesFrom_eq hlayout hlayout.places 0

theorem reaches_alike (hp : p.Corresponds E index index' p') :
    Alike E Eq (p.reaches index layout) (p'.reaches index' layout') := by
  unfold Place.reaches
  rw [hp.form]
  cases p.form with
  | near => exact .ok rfl
  | short =>
    rcases rel_iff.1 hp.entry.reference with ⟨href, href'⟩ | ⟨ref, ref', href, href', -, hname⟩
    · rw [href, href']
      exact .ok rfl
    · rw [href, href']
      apply (locate_alike hlayout hname).bind
      rintro ⟨position, target⟩ ⟨position', target'⟩ ⟨-, htarget, -⟩
      apply Alike.ok
      rw [htarget.offset, hp.stop]

theorem allReach_alike {places places' : List Place}
    (hplaces : List.Forall₂ (Place.Corresponds E index index') places places') :
    Alike E Eq (layout.allReach index places) (layout'.allReach index' places') := by
  induction hplaces with
  | nil => exact .ok rfl
  | cons hp _ ih =>
    apply (reaches_alike hlayout hp).bind
    rintro reach _ rfl
    cases reach with
    | true => exact ih
    | false => exact .ok rfl

end References

/-! ## Passes -/

section Passes

variable (hcode : List.Forall₂ (Entry.Corresponds E index index') code code')
  (hE : ∀ err, E err err)

include hcode in
theorem shortsReach_alike (forms : List BranchForm) :
    Alike E Eq (shortsReach code index forms) (shortsReach code' index' forms) := by
  apply (compute_alike hcode forms).bind
  intro layout layout' hlayout
  exact allReach_alike hlayout hlayout.places

include hcode hE

theorem shrinkEach_alike (forms : List BranchForm) (positions : List Nat) :
    Alike E Eq (shrinkEach code index forms positions)
      (shrinkEach code' index' forms positions) := by
  induction positions generalizing forms with
  | nil => exact .ok rfl
  | cons position positions ih =>
    apply (shortsReach_alike hcode (forms.set position .short)).bind
    rintro reach _ rfl
    cases reach with
    | false => exact ih forms
    | true =>
      apply (ih (forms.set position .short)).bind
      rintro shrunk _ rfl
      exact .refl hE _

theorem shrink_alike (forms : List BranchForm) (positions : List Nat) :
    Alike E Eq (shrink code index forms positions) (shrink code' index' forms positions) := by
  unfold shrink
  by_cases hempty : positions.isEmpty = true
  · rw [if_pos hempty, if_pos hempty]
    exact .ok rfl
  · rw [if_neg hempty, if_neg hempty]
    apply (shortsReach_alike hcode _).bind
    rintro reach _ rfl
    cases reach with
    | false => exact shrinkEach_alike hcode hE forms positions
    | true => exact .ok rfl

/-- A run of passes ends alike, because every pass lays out, resolves and shortens alike. -/
theorem relaxFrom_alike (pass : Nat) (forms : List BranchForm) (budget : Nat) :
    Alike E (Relaxed.Corresponds E index index') (relaxFrom code index pass forms budget)
      (relaxFrom code' index' pass forms budget) := by
  -- By induction on the budget: both runs have the same forms before every pass.
  induction budget generalizing pass forms with
  | zero => exact .error (hE _)
  | succ budget ih =>
    apply (compute_alike hcode forms).bind
    intro layout layout' hlayout
    have hresolve : ∀ p p' : Place, p.Corresponds E index index' p' →
        Alike E (fun _ _ => True) (p.resolve index layout) (p'.resolve index' layout') :=
      fun _ _ hp => (resolve_alike hlayout hp).mono fun _ _ _ _ _ => trivial
    apply (Alike.mapM hlayout.places hresolve).bind
    intro resolved resolved' _
    rw [candidates_eq hlayout]
    apply (shrink_alike hcode hE forms (layout.candidates index)).bind
    rintro ⟨forms', shrunk⟩ _ rfl
    dsimp only
    by_cases hshrunk : shrunk = 0
    · rw [if_pos hshrunk, if_pos hshrunk]
      exact .ok ⟨hlayout, rfl⟩
    · rw [if_neg hshrunk, if_neg hshrunk]
      exact ih (pass + 1) forms'

omit hE in
theorem length_filter_isShrinkable :
    (code'.filter Entry.isShrinkable).length = (code.filter Entry.isShrinkable).length := by
  have hmap := forall₂_map_eq_iff.1 (hcode.imp fun _ _ he => he.shrinkable)
  have hcount := congrArg (List.countP id) hmap
  rw [List.countP_map, List.countP_map] at hcount
  rw [← List.countP_eq_length_filter, ← List.countP_eq_length_filter]
  exact hcount

/-- **Jump shrinking ends alike on streams that correspond**: in errors that count as the same, or
after as many passes, with the same forms, offsets, sizes and modes. -/
theorem relax_alike :
    Alike E (Relaxed.Corresponds E index index') (relax code index) (relax code' index') := by
  have hnear : (code'.map fun _ => BranchForm.near) = code.map fun _ => .near := by
    rw [List.map_const', List.map_const', hcode.length_eq]
  unfold relax
  rw [hnear, length_filter_isShrinkable hcode]
  exact relaxFrom_alike hcode hE 1 _ _

end Passes

/-! ## Images -/

theorem Place.Corresponds.chunk_alike (hp : p.Corresponds E index index' p') (r : Resolution) :
    Alike E Eq (p.chunk r) (p'.chunk r) := by
  have hp' : p'.chunk r = { p with entry := p'.entry }.chunk r := by
    simp only [Place.chunk, Place.context, hp.form, hp.offset, hp.mode, hp.size]
  rw [hp']
  exact hp.entry.chunk p r

/-- The labels in two layouts have the same values if no origin has a say in them. -/
theorem resolutions_eq (hlayout : layout.Corresponds E index index' layout')
    (horigins : ∀ p ∈ layout.places, p.entry.UsesAddress → layout.SameOrigins layout')
    {rs rs' : List Resolution} (h : layout.resolutions index = .ok rs)
    (h' : layout'.resolutions index' = .ok rs') : rs' = rs := by
  have hplaces := (List.forall₂_and_left _ _).2 ⟨horigins, hlayout.places⟩
  have halike : Alike E (List.Forall₂ Eq) (layout.resolutions index)
      (layout'.resolutions index') := by
    refine .mapM hplaces ?_
    rintro p p' ⟨hsame, hp⟩
    exact (resolve_alike hlayout hp).mono fun r r' _ _ hr => (hr hsame).symm
  have hrs := halike.rel_of_ok h h'
  rw [List.forall₂_eq_eq_eq] at hrs
  exact hrs.symm

/-- Layouts that correspond are written alike, if their labels have the same values. -/
theorem emit_alike {r r' : Relaxed} (hr : r.Corresponds E index index' r')
    (hresolutions : r'.resolutions = r.resolutions) (written : Nat) :
    Alike E (fun image image' => image'.bytes = image.bytes ∧ image'.passes = image.passes ∧
        image'.shrunk = image.shrunk)
      (emit code index r written) (emit code' index' r' written) := by
  have hwritten := List.forall₂_take written (forall₂_zip hr.layout.places r.resolutions)
  have hbytes : Alike E (fun image image' => image'.bytes = image.bytes ∧
      image'.passes = image.passes) (emit code index r written) (emit code' index' r' written) := by
    unfold emit
    rw [hresolutions]
    apply (Alike.mapM hwritten (S := Eq) ?_).bind
    · intro chunks chunks' hchunks
      rw [List.forall₂_eq_eq_eq] at hchunks
      exact .ok ⟨by rw [hchunks], hr.passes⟩
    · rintro ⟨p, resolution⟩ ⟨p', _⟩ ⟨hp, rfl⟩
      exact hp.chunk_alike resolution
  refine hbytes.mono fun image image' hemit hemit' heq => ⟨heq.1, heq.2, ?_⟩
  rw [shrunk_of_emit hemit, shrunk_of_emit hemit', hr.layout.forms]

theorem sameOrigins_layFrom
    (hcode : List.Forall₂ (fun e e' : Entry => e'.originAfter = e.originAfter) code code')
    {c c' : Cursor} (horigin : c'.origin = c.origin) {forms forms' : List BranchForm}
    (h : Layout.layFrom c code forms = .ok layout)
    (h' : Layout.layFrom c' code' forms' = .ok layout') : layout.SameOrigins layout' := by
  induction hcode generalizing c c' forms forms' layout layout' with
  | nil =>
    cases h
    cases h'
    exact .nil
  | @cons e e' code code' he _ ih =>
    obtain ⟨size, rest, -, hrest, rfl⟩ := Layout.layFrom_cons_eq_ok.1 h
    obtain ⟨size', rest', -, hrest', rfl⟩ := Layout.layFrom_cons_eq_ok.1 h'
    have hpast : (c'.past e' size').origin = (c.past e size).origin := by
      simp only [Cursor.past, he, horigin]
    exact .cons horigin (ih hpast hrest hrest')

section Images

variable {marker marker' : Option String} {image image' : Image} (hE : ∀ err, E err err)
include hE

/-- **Streams that correspond are linked alike**, if they set the same origins or write no address:
either both fail, with errors that count as the same, or both give the same bytes. -/
theorem link_alike
    (hbuild : Alike E (fun _ _ => True) (LabelIndex.build code) (LabelIndex.build code'))
    (hcode : ∀ index index', LabelIndex.build code = .ok index →
      LabelIndex.build code' = .ok index' →
      List.Forall₂ (Entry.Corresponds E index index') code code' ∧
        Alike E Eq (writtenEntries code index marker) (writtenEntries code' index' marker'))
    (horigins : ∀ e ∈ code, e.UsesAddress →
      List.Forall₂ (fun e e' : Entry => e'.originAfter = e.originAfter) code code') :
    Alike E (fun image image' => image'.bytes = image.bytes ∧ image'.passes = image.passes ∧
        image'.shrunk = image.shrunk)
      (link code marker) (link code' marker') := by
  apply (hbuild.mono fun index index' hindex hindex' _ => And.intro hindex hindex').bind
  rintro index index' ⟨hindex, hindex'⟩
  obtain ⟨hentries, hwritten⟩ := hcode index index' hindex hindex'
  have hrelax : Alike E
      (fun r r' => r.Corresponds E index index' r' ∧ r'.resolutions = r.resolutions)
      (relax code index) (relax code' index') := by
    refine (relax_alike hentries hE).mono fun r r' hrelax hrelax' hr => ?_
    have hlaid := (relax_outcome hindex hrelax).2
    have hlaid' := (relax_outcome hindex' hrelax').2
    -- Origins matter only if an address is written, and then both streams set the same ones.
    refine ⟨hr, resolutions_eq hr.layout (fun p hp huses => ?_) hlaid.resolved hlaid'.resolved⟩
    have hentry : p.entry ∈ code := by
      rw [← Layout.places_entry hlaid.laidOut]
      exact List.mem_map_of_mem hp
    exact sameOrigins_layFrom (horigins _ hentry huses) rfl hlaid.laidOut hlaid'.laidOut
  apply hrelax.bind
  rintro r r' ⟨hr, hresolutions⟩
  apply hwritten.bind
  rintro written _ rfl
  exact emit_alike hr hresolutions written

theorem linked_of_links (hindex : LabelIndex.build code = .ok index)
    (hindex' : LabelIndex.build code' = .ok index')
    (hcode : List.Forall₂ (Entry.Corresponds E index index') code code')
    (h : link code marker = .ok image) (h' : link code' marker' = .ok image') :
    ∃ r r' chunks chunks', relax code index = .ok r ∧ r.Corresponds E index index' r' ∧
      Linked code marker image index r.layout chunks ∧
      Linked code' marker' image' index' r'.layout chunks' ∧
      image'.passes = image.passes ∧ image'.shrunk = image.shrunk := by
  obtain ⟨_, r, written, hbuild, hrelax, hwritten, hemit⟩ := link_eq_ok.1 h
  obtain ⟨_, r', written', hbuild', hrelax', hwritten', hemit'⟩ := link_eq_ok.1 h'
  rw [hindex] at hbuild
  rw [hindex'] at hbuild'
  cases hbuild
  cases hbuild'
  have hr := (relax_alike hcode hE).rel_of_ok hrelax hrelax'
  obtain ⟨chunks, hlinked⟩ := linked_of_emit hindex hrelax hwritten hemit
  obtain ⟨chunks', hlinked'⟩ := linked_of_emit hindex' hrelax' hwritten' hemit'
  refine ⟨r, r', chunks, chunks', hrelax, hr, hlinked, hlinked', ?_, ?_⟩
  · rw [passes_of_emit hemit, passes_of_emit hemit', hr.passes]
  · rw [shrunk_of_emit hemit, shrunk_of_emit hemit', hr.layout.forms]

end Images

section Labels

variable {marker marker' : Option String} {image image' : Image}
  {chunks chunks' : List (List UInt8)}
  (h : Linked code marker image index layout chunks)
  (h' : Linked code' marker' image' index' layout' chunks')
  (hlayout : layout.Corresponds E index index' layout')

include h h' hlayout

/-- Two names that are defined at the same position are at the same place in two images. -/
theorem Linked.label?_rel {name name' : String} (hname : index'.get? name' = index.get? name) :
    Option.Rel (fun label label' => label'.offset = label.offset ∧
        (layout.SameOrigins layout' → label' = label))
      (image.label? name) (image'.label? name') := by
  rw [h.label?_eq, h'.label?_eq, Layout.definition?_eq (Layout.places_entry h.laidOut),
    Layout.definition?_eq (Layout.places_entry h'.laidOut), ← LabelIndex.get?_build h.indexed,
    ← LabelIndex.get?_build h'.indexed, hname]
  cases index.get? name with
  | none => exact .none
  | some position =>
    rw [Option.bind_some, Option.bind_some]
    rcases rel_iff.1 (rel_places hlayout position) with ⟨hp, hp'⟩ | ⟨p, p', hp, hp', hplace, hsame⟩
    · rw [hp, hp']
      exact .none
    · rw [hp, hp']
      refine .some ⟨hplace.offset, fun horigins => ?_⟩
      rw [Place.labelAddress, Place.labelAddress, hsame horigins, hplace.offset]

end Labels

end BootImage
