import BootImage.Proofs.Emission

/-!
# What a linked image holds

An image is written from one layout: the one that jump shrinking settles on. Its bytes are the
chunks of the written entries, each where the layout puts it and as long as the layout says, and
every label in a chunk has the value that the image's own label table gives it.

* `Place.Writes` — what an entry writes, in terms of the image that it is part of.
* `writes_of_chunk` — the chunk of an entry is that.
* `slice_of_writes` — a chunk stands at the offset of its entry.
* `chunks_of_emit` — an image is made of such chunks.
-/

namespace BootImage

/-- What an entry of a layout writes into an image. -/
structure Place.Writes (image : Image) (p : Place) (chunk : List UInt8) : Prop where
  length : chunk.length = p.size
  /-- A branch holds the distance from its end to its target. -/
  branch : ∀ i name, p.entry = .instruction i → i.branchTarget? = some name →
    ∃ target field, image.label? name = some target ∧
      chunk = (i.mnemonic.branchOpcode p.form).bytes ++ field ∧
      field.length = (i.mnemonic.distanceWidth p.form p.mode).bytes ∧
      LittleEndian.toInt field + p.stop = target.offset
  /-- A label as an operand is written as its address, at the end of the instruction. -/
  value : ∀ i name, p.entry = .instruction i → i.absoluteLabel? = some name →
    ∃ target front, image.label? name = some target ∧
      chunk = front ++ LittleEndian.ofInt (i.labelWidth p.mode).bytes target.address
  /-- A label in a memory operand is written as its address plus the constant next to it, in front
  of the immediate field. -/
  symbol : ∀ i m name delta, p.entry = .instruction i → i.memory? = some m →
    m.labelRef? = some (name, delta) →
    ∃ target e front back, image.label? name = some target ∧
      i.encoding (.sizing p.mode p.form) = .ok e ∧ back.length = e.immediate.length ∧
      chunk = front ++
        LittleEndian.ofInt (m.addressWidth p.mode).bytes (target.address + delta) ++ back
  /-- A label as data is written as its address. -/
  address : ∀ label name, p.entry = .data label (.address name) →
    ∃ target, image.label? name = some target ∧ chunk = LittleEndian.ofInt 4 target.address
  padding : ∀ n, p.entry = .align n ∨ p.entry = .offset n → chunk = List.replicate p.size 0
  fill : ∀ n fill, p.entry = .times n fill → chunk = List.replicate n.toNat fill

/-! ## Chunks -/

section Chunks

variable {code : Code} {index : LabelIndex} {forms : List BranchForm} {layout : Layout}
  {image : Image} {p : Place} {r : Resolution} {bytes : List UInt8} {i : Instruction}

variable (hlayout : Layout.compute code forms = .ok layout) (hp : p ∈ layout.places)
  (hchunk : p.chunk r = .ok bytes)
include hlayout hp hchunk

theorem Place.filled_of_chunk (hi : p.entry = .instruction i) (hbranch : i.branchTarget? = none) :
    ∃ e, i.encoding (.sizing p.mode p.form) = .ok e ∧
      bytes = (e.filled (i.symbolField? (p.context r)) (i.valueField? (p.context r))).bytes
        p.mode := by
  obtain ⟨e, he, -, hfill⟩ := chunk_instruction hlayout hp hi hbranch
  rw [hfill] at hchunk
  obtain ⟨e', he', hbytes⟩ := bind_eq_ok.1 hchunk
  obtain ⟨-, -, rfl⟩ := Encoding.fill_eq_ok.1 he'
  cases hbytes
  exact ⟨e, he, rfl⟩

/-- The chunk of an entry is what the entry writes into an image with the labels of the layout. -/
theorem Place.writes_of_chunk (hindex : LabelIndex.build code = .ok index)
    (hr : p.resolve index layout = .ok r)
    (himage : ∀ name, image.label? name = (layout.definition? name).map Place.labelAddress) :
    p.Writes image bytes := by
  constructor
  case length => exact length_chunk hindex hlayout hp hr hchunk
  case branch =>
    -- The distance counts from the end of the branch, which is where the field ends.
    intro i name hi hname
    obtain ⟨target, hdefinition, htarget, -⟩ := resolve_branch hindex hlayout hr hi hname
    rw [chunk_branch hlayout hp hi hname htarget] at hchunk
    obtain ⟨field, hfield, hbytes⟩ := bind_eq_ok.1 hchunk
    obtain ⟨hreach, rfl⟩ := Encoding.distanceField_eq_ok.1 hfield
    cases hbytes
    refine ⟨target.labelAddress, _, by rw [himage, hdefinition]; rfl, rfl,
      LittleEndian.length_ofInt _ _, ?_⟩
    rw [Width.toInt_ofInt hreach, sub_add_cancel]
    rfl
  case value =>
    intro i name hi hname
    obtain ⟨target, hdefinition, hvalue⟩ := resolve_value hindex hlayout hr hi hname
    obtain ⟨e, -, rfl⟩ := filled_of_chunk hlayout hp hchunk hi
      (Instruction.branchTarget?_of_absoluteLabel? hname)
    rw [hvalue]
    obtain ⟨front, hfront⟩ := e.bytes_filled_value (i.symbolField? (p.context r))
      (i.labelWidth p.mode) target.address p.mode
    exact ⟨target.labelAddress, front, by rw [himage, hdefinition]; rfl, hfront⟩
  case symbol =>
    intro i m name delta hi hm hlabel
    have hbranch := Instruction.branchTarget?_of_memory? hm
    obtain ⟨target, hdefinition, hfield⟩ := resolve_displacement hindex hlayout hr hi hm hlabel
    obtain ⟨e, he, rfl⟩ := filled_of_chunk hlayout hp hchunk hi hbranch
    -- A displacement that gets a value is one that the operand has addressing bytes for.
    have haddressed : e.addressing.isSome = true :=
      (i.encoding_fills hbranch (p.context r) _).addressed he (by rw [hfield]; rfl)
    obtain ⟨front, hfront⟩ := e.bytes_filled_symbol haddressed (m.addressWidth p.mode)
      (target.address + delta) (i.valueField? (p.context r)) p.mode
    rw [← hfield] at hfront
    exact ⟨target.labelAddress, e, front, _, by rw [himage, hdefinition]; rfl, he,
      Instruction.length_immediate hbranch (p.context r) he, hfront⟩
  case address =>
    intro label name hentry
    obtain ⟨target, hdefinition, htarget⟩ := resolve_address hindex hlayout hr hentry
    rw [Place.chunk, hentry] at hchunk
    simp only [htarget, DataValue.encode_address] at hchunk
    split at hchunk <;> cases hchunk
    exact ⟨target.labelAddress, by rw [himage, hdefinition]; rfl, rfl⟩
  case padding =>
    intro n hentry
    rcases hentry with hentry | hentry
    all_goals
      rw [Place.chunk, hentry] at hchunk
      cases hchunk
      rfl
  case fill =>
    intro n fill hentry
    rw [Place.chunk, hentry] at hchunk
    cases hchunk
    rfl

end Chunks

/-! ## Images -/

theorem slice_flatten {chunks : List (List UInt8)} {k : Nat} {chunk : List UInt8}
    (h : chunks[k]? = some chunk) :
    (chunks.flatten.drop (chunks.take k).flatten.length).take chunk.length = chunk := by
  induction chunks generalizing k with
  | nil => simp at h
  | cons first chunks ih =>
    cases k with
    | zero =>
      cases h
      simp
    | succ k =>
      have hrest := ih h
      simpa using hrest

theorem length_flatten_of_sizes {places : List Place} {chunks : List (List UInt8)}
    (h : List.Forall₂ (fun p chunk => chunk.length = p.size) places chunks) :
    chunks.flatten.length = extent places := by
  induction h with
  | nil => rfl
  | cons hlength _ ih =>
    rw [List.flatten_cons, List.length_append, extent_cons, hlength, ih]

theorem length_flatten_of_writes {image : Image} {places : List Place} {chunks : List (List UInt8)}
    (h : List.Forall₂ (Place.Writes image) places chunks) :
    chunks.flatten.length = extent places :=
  length_flatten_of_sizes (h.imp fun _ _ hwrites => hwrites.length)

theorem slice_of_writes {code : Code} {forms : List BranchForm} {layout : Layout} {image : Image}
    {written k : Nat} {p : Place} {chunks : List (List UInt8)} {chunk : List UInt8}
    (hlayout : Layout.compute code forms = .ok layout)
    (h : List.Forall₂ (Place.Writes image) (layout.places.take written) chunks)
    (hp : layout.places[k]? = some p) (hchunk : chunks[k]? = some chunk) :
    p.Writes image chunk ∧ (chunks.flatten.drop p.offset).take p.size = chunk := by
  obtain ⟨q, hq, hwrites⟩ := forall₂_getElem?_right h hchunk
  have hk : k < written := by
    by_contra hge
    rw [List.getElem?_eq_none (by rw [List.length_take]; omega)] at hq
    cases hq
  rw [List.getElem?_take_of_lt hk, hp] at hq
  cases hq
  have hoffset := length_flatten_of_writes (List.forall₂_take k h)
  rw [List.take_take, Nat.min_eq_left hk.le, ← Layout.offset_eq_sum hlayout hp] at hoffset
  refine ⟨hwrites, ?_⟩
  rw [← hoffset, ← hwrites.length]
  exact slice_flatten hchunk

section Images

variable {code : Code} {index : LabelIndex} {r : Relaxed} {marker : Option String} {image : Image}
  {written : Nat}

theorem link_eq_ok :
    link code marker = .ok image ↔
      ∃ index r written, LabelIndex.build code = .ok index ∧ relax code index = .ok r ∧
        writtenEntries code index marker = .ok written ∧ emit code index r written = .ok image := by
  simp only [link, bind_eq_ok]
  constructor
  · rintro ⟨index, hindex, r, hr, written, hwritten, hemit⟩
    exact ⟨index, r, written, hindex, hr, hwritten, hemit⟩
  · rintro ⟨index, r, written, hindex, hr, hwritten, hemit⟩
    exact ⟨index, hindex, r, hr, written, hwritten, hemit⟩

/-- All entries are written, or those in front of the first one that defines the marker. -/
theorem writtenEntries_eq_ok (hindex : LabelIndex.build code = .ok index) :
    writtenEntries code index marker = .ok written ↔
      match marker with
      | none => written = code.length
      | some name => code.findIdx? (·.defines name) = some written := by
  cases marker with
  | none => simp [writtenEntries, eq_comm]
  | some name =>
    rw [writtenEntries, LabelIndex.require_eq_ok_iff, LabelIndex.get?_build hindex]

theorem written_le (hindex : LabelIndex.build code = .ok index)
    (h : writtenEntries code index marker = .ok written) : written ≤ code.length := by
  rw [writtenEntries_eq_ok hindex] at h
  cases marker with
  | none => exact h.le
  | some name =>
    obtain ⟨hlt, -⟩ := List.findIdx?_eq_some_iff_getElem.1 h
    exact hlt.le

/-- Without a marker, everything up to the end of the layout is written. -/
theorem extent_written {forms : List BranchForm} {layout : Layout}
    (hlayout : Layout.compute code forms = .ok layout) (hwritten : written = code.length) :
    extent (layout.places.take written) = layout.stop := by
  rw [Layout.stop_eq_sum hlayout, hwritten, ← Layout.places_length hlayout, List.take_length]

/-- With a marker, everything up to its place is written. -/
theorem place_of_marker {forms : List BranchForm} {layout : Layout} {name : String}
    (hlayout : Layout.compute code forms = .ok layout)
    (hwritten : code.findIdx? (·.defines name) = some written) :
    ∃ p, layout.places[written]? = some p ∧ layout.definition? name = some p ∧
      extent (layout.places.take written) = p.offset := by
  have hlt : written < layout.places.length := by
    rw [Layout.places_length hlayout]
    exact (List.findIdx?_eq_some_iff_getElem.1 hwritten).1
  have hp : layout.places[written]? = some layout.places[written] := List.getElem?_eq_getElem hlt
  refine ⟨layout.places[written], hp, ?_, (Layout.offset_eq_sum hlayout hp).symm⟩
  rw [Layout.definition?_eq (Layout.places_entry hlayout), hwritten, Option.bind_some, hp]

theorem label?_of_emit (hindex : LabelIndex.build code = .ok index)
    (hentries : r.layout.places.map Place.entry = code)
    (hemit : emit code index r written = .ok image) (name : String) :
    image.label? name = (r.layout.definition? name).map Place.labelAddress := by
  obtain ⟨chunks, -, himage⟩ := bind_eq_ok.1 hemit
  cases himage
  exact LabelTable.find?_ofLayout hindex hentries name

theorem shrunk_of_emit (hemit : emit code index r written = .ok image) :
    image.shrunk = r.layout.forms.count .short := by
  obtain ⟨chunks, -, himage⟩ := bind_eq_ok.1 hemit
  cases himage
  rw [Layout.forms, List.count_eq_countP, List.countP_map, List.countP_eq_length_filter]
  rfl

theorem passes_of_emit (hemit : emit code index r written = .ok image) :
    image.passes = r.passes := by
  obtain ⟨chunks, -, himage⟩ := bind_eq_ok.1 hemit
  cases himage
  rfl

theorem origin_of_link (h : link code marker = .ok image) : image.origin = firstOrigin code := by
  obtain ⟨index, r, written, -, -, -, hemit⟩ := link_eq_ok.1 h
  obtain ⟨chunks, -, himage⟩ := bind_eq_ok.1 hemit
  cases himage
  rfl

theorem chunks_of_emit (hcode : Linkable code index) (h : Outcome code index 1 code.allNear r)
    (hemit : emit code index r written = .ok image) :
    ∃ chunks, image.bytes = chunks.flatten ∧
      List.Forall₂ (Place.Writes image) (r.layout.places.take written) chunks := by
  have hlabels := label?_of_emit hcode.indexed (Layout.places_entry h.laidOut) hemit
  obtain ⟨chunks, hchunks, himage⟩ := bind_eq_ok.1 hemit
  have hbytes : image.bytes = chunks.flatten := by
    cases himage
    rfl
  refine ⟨chunks, hbytes, (h.chunks_of_mapM hchunks).imp ?_⟩
  rintro p chunk ⟨hp, resolution, hresolve, hchunk⟩
  exact Place.writes_of_chunk h.laidOut hp hchunk hcode.indexed hresolve hlabels

/-- **An image holds what its stream says**, laid out for one choice of branch forms: it is made of
the chunks of the written entries, each at its offset, ends where the first unwritten entry stands,
and every label in it has the value that the image gives that label. -/
theorem link_sound (h : link code marker = .ok image) :
    ∃ (forms : List BranchForm) (layout : Layout) (chunks : List (List UInt8)),
      Shortens code code.allNear forms ∧ Layout.compute code forms = .ok layout ∧
      image.bytes = chunks.flatten ∧
      (∀ (k : Nat) (p : Place) (chunk : List UInt8), layout.places[k]? = some p →
        chunks[k]? = some chunk → p.Writes image chunk ∧
          (image.bytes.drop p.offset).take p.size = chunk) ∧
      (match marker with
        | none => chunks.length = code.length ∧ image.size = layout.stop
        | some name => code.findIdx? (·.defines name) = some chunks.length ∧
          ∃ p, layout.places[chunks.length]? = some p ∧
            image.label? name = some p.labelAddress ∧ image.size = p.offset) ∧
      image.shrunk = forms.count .short := by
  obtain ⟨index, r, written, hindex, hrelax, hwritten, hemit⟩ := link_eq_ok.1 h
  obtain ⟨hcode, hr⟩ := relax_outcome hindex hrelax
  obtain ⟨chunks, hbytes, hchunks⟩ := chunks_of_emit hcode hr hemit
  have hlength : chunks.length = written := by
    have hle := written_le hindex hwritten
    rw [← hchunks.length_eq, List.length_take_of_le]
    rwa [Layout.places_length hr.laidOut]
  have hsize : image.size = extent (r.layout.places.take written) := by
    rw [Image.size, hbytes, length_flatten_of_writes hchunks]
  refine ⟨r.layout.forms, r.layout, chunks, hr.shortens, hr.laidOut, hbytes, ?_, ?_,
    shrunk_of_emit hemit⟩
  · intro k p chunk hp hchunk
    rw [hbytes]
    exact slice_of_writes hr.laidOut hchunks hp hchunk
  · rw [hlength, hsize]
    rw [writtenEntries_eq_ok hindex] at hwritten
    -- The marker only decides how many entries are written.
    cases marker with
    | none => exact ⟨hwritten, extent_written hr.laidOut hwritten⟩
    | some name =>
      obtain ⟨p, hp, hdefinition, hoffset⟩ := place_of_marker hr.laidOut hwritten
      refine ⟨hwritten, p, hp, ?_, hoffset⟩
      rw [label?_of_emit hindex (Layout.places_entry hr.laidOut) hemit, hdefinition,
        Option.map_some]

/-- A jump in front of two reserved bytes: the image ends where the space starts. -/
theorem link_sound_reserved :
    ∃ (image : Image) (layout : Layout) (p : Place),
      link [.label "start", .instruction ⟨.jmp, [.label "start"]⟩, .label "bss", .times 2 0]
        (some "bss") = .ok image ∧
      layout.places[2]? = some p ∧ image.size = p.offset := by
  have h : link [.label "start", .instruction ⟨.jmp, [.label "start"]⟩, .label "bss", .times 2 0]
      (some "bss") = .ok _ := rfl
  obtain ⟨forms, layout, chunks, -, -, -, -, ⟨hfind, p, hp, -, hsize⟩, -⟩ := link_sound h
  have hlength : some 2 = some chunks.length := hfind
  rw [← Option.some.inj hlength] at hp
  exact ⟨_, layout, p, h, hp, hsize⟩

end Images

end BootImage
