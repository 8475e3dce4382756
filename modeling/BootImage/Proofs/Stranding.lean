import BootImage.Proofs.Soundness

/-!
# What shrinking can strand

Whether an entry can be written depends on where its labels are: every number has to fit its field.
Jump shrinking moves labels, never to later offsets, and before it shortens a jump it looks at the
short jumps only. Addresses stay in range when they fall. What can be put out of range is a near
branch, when its target moves away from it, and a displacement, when it falls below zero.

* `Layout.Encodes` — an entry of a layout can be written.
* `Place.Fits` — the numbers in an entry fit; `encodes_iff_fits` — then it can be written.
* `Layout.Strands` — the two ways in which a shrink can put an entry out of range.
* `fits_of_not_strands` — there are no others.
-/

namespace BootImage

/-- The entry can be written, with its labels resolved in the given layout. -/
def Layout.Encodes (layout : Layout) (index : LabelIndex) (p : Place) : Prop :=
  ∃ resolution bytes, p.resolve index layout = .ok resolution ∧ p.chunk resolution = .ok bytes

/-- The numbers that stand for the labels of an entry fit their fields. -/
structure Place.Fits (layout : Layout) (p : Place) : Prop where
  branch : ∀ i name d, p.entry = .instruction i → i.branchTarget? = some name →
    layout.distance? p = some d → (i.mnemonic.distanceWidth p.form p.mode).Reaches d
  value : ∀ i name target, p.entry = .instruction i → i.absoluteLabel? = some name →
    layout.definition? name = some target → (i.labelWidth p.mode).Holds target.address
  symbol : ∀ i m name delta target, p.entry = .instruction i → i.memory? = some m →
    m.labelRef? = some (name, delta) → layout.definition? name = some target →
    (m.addressWidth p.mode).Holds (target.address + delta)
  address : ∀ label name target, p.entry = .data label (.address name) →
    layout.definition? name = some target → target.address < 2 ^ 32

/-! ## When an entry can be written -/

section Entries

variable {code : Code} {index : LabelIndex} {forms : List BranchForm} {layout : Layout}
  {p : Place}

theorem Linkable.resolve (hcode : Linkable code index)
    (hlayout : Layout.compute code forms = .ok layout) (hp : p ∈ layout.places) :
    ∃ resolution, p.resolve index layout = .ok resolution :=
  exists_mapM_eq_ok_iff.1 (hcode.resolutions hlayout) p hp

/-- An instruction other than a branch can be written if the fields for its labels hold them. -/
theorem Place.chunk_ok_iff (hlayout : Layout.compute code forms = .ok layout)
    (hp : p ∈ layout.places) {i : Instruction} (hi : p.entry = .instruction i)
    (hbranch : i.branchTarget? = none) {r : Resolution} :
    (∃ bytes, p.chunk r = .ok bytes) ↔
      (∀ s ∈ i.symbolField? (p.context r), s.1.Holds s.2) ∧
        ∀ s ∈ i.valueField? (p.context r), s.1.Holds s.2 := by
  obtain ⟨e, -, -, hchunk⟩ := chunk_instruction hlayout hp hi hbranch
  rw [hchunk]
  constructor
  · rintro ⟨bytes, hbytes⟩
    obtain ⟨e', hfill, -⟩ := bind_eq_ok.1 hbytes
    obtain ⟨hsymbol, hvalue, -⟩ := Encoding.fill_eq_ok.1 hfill
    exact ⟨hsymbol, hvalue⟩
  · rintro ⟨hsymbol, hvalue⟩
    exact ⟨_, by rw [e.fill_of_holds hsymbol hvalue]; rfl⟩

theorem Place.fits_of_encodes (hcode : Linkable code index)
    (hlayout : Layout.compute code forms = .ok layout) (hp : p ∈ layout.places)
    (h : layout.Encodes index p) : p.Fits layout := by
  obtain ⟨r, bytes, hr, hchunk⟩ := h
  constructor
  case branch =>
    intro i name d hi hname hd
    obtain ⟨target, -, htarget, hdistance⟩ := resolve_branch hcode.indexed hlayout hr hi hname
    rw [hd] at hdistance
    cases hdistance
    rw [chunk_branch hlayout hp hi hname htarget] at hchunk
    obtain ⟨field, hfield, -⟩ := bind_eq_ok.1 hchunk
    exact (Encoding.distanceField_eq_ok.1 hfield).1
  case value =>
    intro i name target hi hname hdefinition
    obtain ⟨target', hdefinition', hvalue⟩ := resolve_value hcode.indexed hlayout hr hi hname
    rw [hdefinition] at hdefinition'
    cases hdefinition'
    have hholds := (chunk_ok_iff hlayout hp hi
      (Instruction.branchTarget?_of_absoluteLabel? hname)).1 ⟨bytes, hchunk⟩
    exact hholds.2 _ hvalue
  case symbol =>
    intro i m name delta target hi hm hlabel hdefinition
    obtain ⟨target', hdefinition', hsymbol⟩ :=
      resolve_displacement hcode.indexed hlayout hr hi hm hlabel
    rw [hdefinition] at hdefinition'
    cases hdefinition'
    have hholds := (chunk_ok_iff hlayout hp hi
      (Instruction.branchTarget?_of_memory? hm)).1 ⟨bytes, hchunk⟩
    exact hholds.1 _ hsymbol
  case address =>
    intro label name target he hdefinition
    obtain ⟨target', hdefinition', htarget⟩ := resolve_address hcode.indexed hlayout hr he
    rw [hdefinition] at hdefinition'
    cases hdefinition'
    rw [chunk, he] at hchunk
    simp only [htarget, DataValue.encode_address] at hchunk
    split at hchunk
    · omega
    · cases hchunk

theorem Place.encodes_of_fits (hcode : Linkable code index)
    (hlayout : Layout.compute code forms = .ok layout) (hp : p ∈ layout.places)
    (h : p.Fits layout) : layout.Encodes index p := by
  obtain ⟨r, hr⟩ := hcode.resolve hlayout hp
  -- The labels resolve in any layout of a linkable stream; what is left is that the bytes exist.
  suffices hchunk : ∃ bytes, p.chunk r = .ok bytes by
    obtain ⟨bytes, hbytes⟩ := hchunk
    exact ⟨r, bytes, hr, hbytes⟩
  cases he : p.entry with
  | instruction i =>
    cases hname : i.branchTarget? with
    | some name =>
      obtain ⟨target, -, htarget, hdistance⟩ := resolve_branch hcode.indexed hlayout hr he hname
      rw [chunk_branch hlayout hp he hname htarget,
        Encoding.distanceField_of_reaches (h.branch i name _ he hname hdistance)]
      exact ⟨_, rfl⟩
    | none =>
      rw [chunk_ok_iff hlayout hp he hname]
      -- The displacement and the immediate field are two labels, each with a bound of its own.
      constructor
      · intro s hs
        obtain ⟨m, name, delta, hm, hlabel⟩ := Instruction.label_of_symbolField? hs
        obtain ⟨target, hdefinition, hsymbol⟩ :=
          resolve_displacement hcode.indexed hlayout hr he hm hlabel
        rw [hsymbol] at hs
        cases hs
        exact h.symbol i m name delta target he hm hlabel hdefinition
      · intro s hs
        obtain ⟨name, hlabel⟩ := Instruction.label_of_valueField? hs
        obtain ⟨target, hdefinition, hvalue⟩ := resolve_value hcode.indexed hlayout hr he hlabel
        rw [hvalue] at hs
        cases hs
        exact h.value i name target he hlabel hdefinition
  | data label value =>
    rw [chunk, he]
    cases value with
    | address name =>
      obtain ⟨target, hdefinition, htarget⟩ := resolve_address hcode.indexed hlayout hr he
      have hlt := h.address label name target he hdefinition
      have hrange : 0 ≤ (target.address : Int) ∧ (target.address : Int) < 2 ^ 32 := by omega
      refine ⟨LittleEndian.ofInt 4 target.address, ?_⟩
      simp only [htarget, DataValue.encode_address, if_pos hrange]
    | _ => exact ⟨_, rfl⟩
  | _ =>
    rw [chunk, he]
    exact ⟨_, rfl⟩

theorem Place.encodes_iff_fits (hcode : Linkable code index)
    (hlayout : Layout.compute code forms = .ok layout) (hp : p ∈ layout.places) :
    layout.Encodes index p ↔ p.Fits layout :=
  ⟨fits_of_encodes hcode hlayout hp, encodes_of_fits hcode hlayout hp⟩

end Entries

/-! ## When a stream can be written -/

section Streams

variable {code : Code} {index : LabelIndex} {r : Relaxed}

theorem exists_emit_iff {written : Nat} :
    (∃ image, emit code index r written = .ok image) ↔
      ∀ x ∈ (r.layout.places.zip r.resolutions).take written,
        ∃ bytes, x.1.chunk x.2 = .ok bytes := by
  constructor
  · rintro ⟨image, hemit⟩
    obtain ⟨chunks, hchunks, -⟩ := bind_eq_ok.1 hemit
    exact exists_mapM_eq_ok_iff.1 ⟨chunks, hchunks⟩
  · intro h
    obtain ⟨chunks, hchunks⟩ := exists_mapM_eq_ok_iff.2 h
    exact ⟨_, bind_eq_ok.2 ⟨chunks, hchunks, rfl⟩⟩

theorem link_iff_encodes (hcode : Linkable code index) (hrelax : relax code index = .ok r)
    (h : Outcome code index 1 code.allNear r) :
    (∃ image, link code none = .ok image) ↔
      ∀ p ∈ r.layout.places, r.layout.Encodes index p := by
  have hresolved := mapM_eq_ok_iff.1 h.resolved
  have hall : (r.layout.places.zip r.resolutions).take code.length =
      r.layout.places.zip r.resolutions := by
    refine List.take_of_length_le ?_
    rw [List.length_zip, Layout.places_length h.laidOut]
    exact Nat.min_le_left _ _
  have hlink : link code none = emit code index r code.length := by
    simp only [link, hcode.indexed, hrelax, writtenEntries, ok_bind]
  rw [hlink, exists_emit_iff, hall]
  constructor
  · intro hchunks p hp
    obtain ⟨k, hk⟩ := List.getElem?_of_mem hp
    obtain ⟨resolution, hget, hresolve⟩ := forall₂_getElem? hresolved hk
    have hmem : (p, resolution) ∈ r.layout.places.zip r.resolutions :=
      List.mem_of_getElem? (List.getElem?_zip_eq_some.2 ⟨hk, hget⟩)
    obtain ⟨bytes, hbytes⟩ := hchunks _ hmem
    exact ⟨resolution, bytes, hresolve, hbytes⟩
  · intro hencodes x hx
    obtain ⟨hp, hresolve⟩ := h.resolve_of_mem_zip hx
    obtain ⟨resolution, bytes, hresolve', hbytes⟩ := hencodes x.1 hp
    rw [hresolve] at hresolve'
    cases hresolve'
    exact ⟨bytes, hbytes⟩

/-! ## What a shrink can put out of range -/

/-- What a shrink can put out of range: a near branch whose target is too far away, or a
displacement that is too far below zero for the address it is part of. -/
def Layout.Strands (layout : Layout) (p : Place) : Prop :=
  (∃ name d, layout.OutOfReach p name d) ∨
    ∃ i m name delta target, p.entry = .instruction i ∧ i.memory? = some m ∧
      m.labelRef? = some (name, delta) ∧ layout.definition? name = some target ∧
      (target.address : Int) + delta < -2 ^ ((m.addressWidth p.mode).bits - 1)

theorem not_strands_of_fits {layout : Layout} {p : Place} (h : p.Fits layout) :
    ¬layout.Strands p := by
  rintro (⟨name, d, hout⟩ | ⟨i, m, name, delta, target, hi, hm, hlabel, hdefinition, hlt⟩)
  · cases he : p.entry with
    | instruction i =>
      have hname := hout.target
      rw [he] at hname
      have hreach := h.branch i name d he hname hout.distance
      rw [hout.near] at hreach
      exact hout.misses hreach
    | _ =>
      have hname := hout.target
      rw [he] at hname
      cases hname
  · have hholds := h.symbol i m name delta target hi hm hlabel hdefinition
    exact absurd hholds.1 (not_le.2 hlt)

/-- Where the numbers fit in the unshrunk layout, only a stranded entry does not fit later. -/
theorem fits_of_not_strands (hcode : Linkable code index)
    (h : Outcome code index 1 code.allNear r) {near : Layout}
    (hnear : List.Forall₂ Place.NoLater r.layout.places near.places) {p q : Place}
    (hp : p ∈ r.layout.places) (hle : p.NoLater q) (hfits : q.Fits near)
    (hstrands : ¬r.layout.Strands p) : p.Fits r.layout := by
  constructor
  case branch =>
    intro i name d hi hname hd
    -- A branch that fitted may miss once its target has moved; then it is stranded.
    by_contra hmisses
    exact hstrands (.inl ⟨name, d, h.outOfReach hcode hp hi hname hd hmisses⟩)
  case value =>
    intro i name target hi hname hdefinition
    obtain ⟨target', hdefinition', htarget⟩ :=
      Layout.definition?_noLater hnear hdefinition
    have hholds := hfits.value i name target' (hle.entry ▸ hi) hname hdefinition'
    -- An address only gets smaller and is never negative, so only the upper bound is at stake.
    have haddress := htarget.address_le
    rw [hle.mode]
    refine ⟨?_, lt_of_le_of_lt (by exact_mod_cast haddress) hholds.2⟩
    have hpow : (0 : Int) ≤ 2 ^ ((i.labelWidth q.mode).bits - 1) := by positivity
    omega
  case symbol =>
    intro i m name delta target hi hm hlabel hdefinition
    obtain ⟨target', hdefinition', htarget⟩ :=
      Layout.definition?_noLater hnear hdefinition
    have hholds := hfits.symbol i m name delta target' (hle.entry ▸ hi) hm hlabel hdefinition'
    have haddress := htarget.address_le
    -- With a negative constant next to it the sum may fall below the lower bound.
    have hlow : ¬((target.address : Int) + delta < -2 ^ ((m.addressWidth p.mode).bits - 1)) :=
      fun hlt => hstrands (.inr ⟨i, m, name, delta, target, hi, hm, hlabel, hdefinition, hlt⟩)
    refine ⟨not_lt.1 hlow, ?_⟩
    rw [hle.mode]
    exact lt_of_le_of_lt (by omega) hholds.2
  case address =>
    intro label name target he hdefinition
    obtain ⟨target', hdefinition', htarget⟩ :=
      Layout.definition?_noLater hnear hdefinition
    have hlt := hfits.address label name target' (hle.entry ▸ he) hdefinition'
    exact lt_of_le_of_lt htarget.address_le hlt

/-- **What shrinking strands**: a stream whose entries can all be written with every branch near
links exactly if jump shrinking strands none of them. -/
theorem link_iff_not_strands (hindex : LabelIndex.build code = .ok index) (hclosed : code.Closed)
    {near : Layout} (hnear : Layout.compute code code.allNear = .ok near)
    (hencodes : ∀ p ∈ near.places, near.Encodes index p) :
    ∃ r, relax code index = .ok r ∧
      ((∃ image, link code none = .ok image) ↔
        ∀ p ∈ r.layout.places, ¬r.layout.Strands p) := by
  have hcode : Linkable code index := ⟨hindex, hclosed, near, hnear⟩
  obtain ⟨r, hrelax, hr⟩ := hcode.relax_spec
  obtain ⟨layout, hlayout, hnoLater⟩ := Layout.compute_shortens hr.shortens hnear
  rw [hr.laidOut] at hlayout
  cases hlayout
  refine ⟨r, hrelax, ?_⟩
  rw [link_iff_encodes hcode hrelax hr]
  constructor
  · intro h p hp
    exact not_strands_of_fits ((Place.encodes_iff_fits hcode hr.laidOut hp).1 (h p hp))
  · intro h p hp
    obtain ⟨k, hk⟩ := List.getElem?_of_mem hp
    obtain ⟨q, hq, hle⟩ := forall₂_getElem? hnoLater hk
    have hmem := List.mem_of_getElem? hq
    have hfits := (Place.encodes_iff_fits hcode hnear hmem).1 (hencodes q hmem)
    exact (Place.encodes_iff_fits hcode hr.laidOut hp).2
      (fits_of_not_strands hcode hr hnoLater hp hle hfits (h p hp))

/-- A jump to the entry behind it, and a call back to there over 32 KiB. The near jump leaves the
target just in reach of the call; the short one moves it out of reach by a byte. -/
def distantCall : Code :=
  [.bits .bits16, .instruction ⟨.jmp, [.label "top"]⟩, .label "top", .offset 32768,
    .instruction ⟨.call, [.label "top"]⟩]

/-- The unshrunk layout, in which the call reaches its target. -/
def distantCallNear : Layout where
  places := [
    ⟨.bits .bits16, .near, 0, 0, .bits16, 0⟩,
    ⟨.instruction ⟨.jmp, [.label "top"]⟩, .near, 0, 0, .bits16, 3⟩,
    ⟨.label "top", .near, 3, 0, .bits16, 0⟩,
    ⟨.offset 32768, .near, 3, 0, .bits16, 32765⟩,
    ⟨.instruction ⟨.call, [.label "top"]⟩, .near, 32768, 0, .bits16, 3⟩]
  stop := 32771

theorem compute_distantCall :
    Layout.compute distantCall distantCall.allNear = .ok distantCallNear := rfl

theorem closed_distantCall : distantCall.Closed :=
  closed_of_resolutions rfl (Layout.places_entry compute_distantCall)
    (rfl : distantCallNear.resolutions ⟨[⟨2, "top", "top"⟩]⟩ =
      .ok [{}, { target := some 3 }, {}, {}, { target := some 3 }])

theorem encodes_distantCall :
    ∀ p ∈ distantCallNear.places, distantCallNear.Encodes ⟨[⟨2, "top", "top"⟩]⟩ p := by
  simp only [distantCallNear, List.forall_mem_cons, List.not_mem_nil, false_implies, implies_true,
    and_true]
  exact ⟨⟨_, _, rfl, rfl⟩, ⟨_, _, rfl, rfl⟩, ⟨_, _, rfl, rfl⟩, ⟨_, _, rfl, rfl⟩, ⟨_, _, rfl, rfl⟩⟩

theorem link_distantCall :
    link distantCall none = .error (.branchOutOfRange "top" (-32769) 32767) := rfl

/-- The call is stranded once the jump is short. -/
theorem link_iff_not_strands_distantCall :
    ∃ r, relax distantCall ⟨[⟨2, "top", "top"⟩]⟩ = .ok r ∧
      ∃ p ∈ r.layout.places, r.layout.Strands p := by
  obtain ⟨r, hrelax, hiff⟩ :=
    link_iff_not_strands rfl closed_distantCall compute_distantCall encodes_distantCall
  refine ⟨r, hrelax, ?_⟩
  by_contra hnone
  obtain ⟨image, himage⟩ := hiff.2 fun p hp hstrands => hnone ⟨p, hp, hstrands⟩
  rw [link_distantCall] at himage
  cases himage

/-- Jump shrinking makes a stream fail that could be written without it. -/
theorem jump_shrinking_strands :
    ¬∀ (code : Code) (index : LabelIndex) (near : Layout), LabelIndex.build code = .ok index →
      code.Closed → Layout.compute code code.allNear = .ok near →
      (∀ p ∈ near.places, near.Encodes index p) → ∃ image, link code none = .ok image := by
  intro h
  obtain ⟨image, himage⟩ := h distantCall ⟨[⟨2, "top", "top"⟩]⟩ distantCallNear rfl
    closed_distantCall compute_distantCall encodes_distantCall
  rw [link_distantCall] at himage
  cases himage

end Streams

end BootImage
