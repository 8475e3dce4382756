import BootImage.Proofs.Soundness

/-!
# The parts of a linked image

A linked image comes from an index of the labels, a layout, and a chunk for each entry that is
written. `Linked` ties the image to these parts, so that what one entry contributes can be looked
up by its position in the stream.

* `findIdx?_append_of_fresh` — a definition stands behind everything that does not define its name.
* `linked_of_emit`, `linked_of_link` — every linked image has such parts.
* `Linked.label?_of_findIdx?` — a label is where the first entry is that defines it.
* `Linked.slice` — the bytes at an entry are its chunk.
* `Linked.take_data` — data at the start of a stream is at the start of the image.
-/

namespace BootImage

/-! ## Definitions behind others -/

section Definitions

variable {front back : Code} {name : String} {k : Nat}

theorem findIdx?_append_of_fresh (hfront : ∀ e ∈ front, e.defines name = false)
    (hback : back.findIdx? (·.defines name) = some k) :
    (front ++ back).findIdx? (·.defines name) = some (front.length + k) := by
  rw [List.findIdx?_append, List.findIdx?_eq_none_iff.2 hfront, hback]
  simp [Nat.add_comm]

theorem length_le_of_findIdx? (hfront : ∀ e ∈ front, e.defines name = false)
    (h : (front ++ back).findIdx? (·.defines name) = some k) : front.length ≤ k := by
  rw [List.findIdx?_append, List.findIdx?_eq_none_iff.2 hfront, Option.none_or] at h
  obtain ⟨j, -, rfl⟩ := Option.map_eq_some_iff.1 h
  omega

end Definitions

/-! ## Linked images -/

/-- The parts that an image is linked from: the label index, the layout that jump shrinking ends
with, and the chunks of the written entries. -/
structure Linked (code : Code) (marker : Option String) (image : Image) (index : LabelIndex)
    (layout : Layout) (chunks : List (List UInt8)) : Prop where
  indexed : LabelIndex.build code = .ok index
  laidOut : Layout.compute code layout.forms = .ok layout
  written : writtenEntries code index marker = .ok chunks.length
  bytes_eq : image.bytes = chunks.flatten
  label?_eq : ∀ name, image.label? name = (layout.definition? name).map Place.labelAddress
  /-- Every chunk is that of the entry at its position, with the labels resolved in the layout. -/
  chunk_eq : List.Forall₂
    (fun p chunk => ∃ r, p.resolve index layout = .ok r ∧ p.chunk r = .ok chunk)
    (layout.places.take chunks.length) chunks
  lines_eq : image.lines = (layout.places.take chunks.length).map (·.line true) ++
    (layout.places.drop chunks.length).map (·.line false)

theorem linked_of_emit {code : Code} {marker : Option String} {image : Image} {index : LabelIndex}
    {r : Relaxed} {written : Nat} (hindex : LabelIndex.build code = .ok index)
    (hrelax : relax code index = .ok r)
    (hwritten : writtenEntries code index marker = .ok written)
    (hemit : emit code index r written = .ok image) :
    ∃ chunks, Linked code marker image index r.layout chunks := by
  obtain ⟨-, hr⟩ := relax_outcome hindex hrelax
  have hlabels := label?_of_emit hindex (Layout.places_entry hr.laidOut) hemit
  obtain ⟨chunks, hchunks, himage⟩ := bind_eq_ok.1 hemit
  have hforall := hr.chunks_of_mapM hchunks
  have hlength : chunks.length = written := by
    have hle := written_le hindex hwritten
    rw [← hforall.length_eq, List.length_take_of_le]
    rwa [Layout.places_length hr.laidOut]
  refine ⟨chunks, hindex, hr.laidOut, hlength.symm ▸ hwritten, ?bytes, hlabels, ?chunks, ?lines⟩
  case bytes =>
    cases himage
    rfl
  case lines =>
    cases himage
    rw [hlength]
  case chunks =>
    rw [hlength]
    exact hforall.imp fun _ _ h => h.2

theorem linked_of_link {code : Code} {marker : Option String} {image : Image}
    (h : link code marker = .ok image) :
    ∃ index layout chunks, Linked code marker image index layout chunks := by
  obtain ⟨index, r, written, hindex, hrelax, hwritten, hemit⟩ := link_eq_ok.1 h
  obtain ⟨chunks, hlinked⟩ := linked_of_emit hindex hrelax hwritten hemit
  exact ⟨index, r.layout, chunks, hlinked⟩

/-- The bytes that a data value has in an image. -/
def DataValue.bytesIn (image : Image) : DataValue → List UInt8
  | bytes bs => bs
  | word w => LittleEndian.ofNat 2 w.toNat
  | dword d => LittleEndian.ofNat 4 d.toNat
  | address name => LittleEndian.ofNat 4 ((image.label? name).elim 0 LabelAddress.address)

namespace Linked

variable {code : Code} {marker : Option String} {image : Image} {index : LabelIndex}
  {layout : Layout} {chunks : List (List UInt8)} {name : String} {k : Nat} {p : Place}
  {chunk : List UInt8}

variable (h : Linked code marker image index layout chunks)
include h

/-! ## Labels -/

theorem definition?_eq_some_iff :
    layout.definition? name = some p ↔
      ∃ k, code.findIdx? (·.defines name) = some k ∧ layout.places[k]? = some p := by
  rw [Layout.definition?_eq (Layout.places_entry h.laidOut), Option.bind_eq_some_iff]

theorem label?_of_findIdx? (hname : code.findIdx? (·.defines name) = some k) :
    ∃ p, layout.places[k]? = some p ∧ image.label? name = some p.labelAddress := by
  have hlt : k < layout.places.length := by
    rw [Layout.places_length h.laidOut]
    exact (List.findIdx?_eq_some_iff_getElem.1 hname).1
  have hp : layout.places[k]? = some layout.places[k] := List.getElem?_eq_getElem hlt
  refine ⟨_, hp, ?_⟩
  rw [h.label?_eq, h.definition?_eq_some_iff.2 ⟨k, hname, hp⟩, Option.map_some]

theorem exists_of_label? {place : LabelAddress} (hname : image.label? name = some place) :
    ∃ k p, code.findIdx? (·.defines name) = some k ∧ layout.places[k]? = some p ∧
      place = p.labelAddress := by
  rw [h.label?_eq] at hname
  obtain ⟨p, hp, rfl⟩ := Option.map_eq_some_iff.1 hname
  obtain ⟨k, hk, hplace⟩ := h.definition?_eq_some_iff.1 hp
  exact ⟨k, p, hk, hplace, rfl⟩

/-! ## Chunks -/

theorem length_chunks_le : chunks.length ≤ layout.places.length := by
  rw [Layout.places_length h.laidOut]
  exact written_le h.indexed h.written

theorem exists_chunk (hk : k < chunks.length) :
    ∃ p chunk, layout.places[k]? = some p ∧ chunks[k]? = some chunk :=
  ⟨_, _, List.getElem?_eq_getElem (hk.trans_le h.length_chunks_le), List.getElem?_eq_getElem hk⟩

theorem resolve_of_chunk (hp : layout.places[k]? = some p) (hchunk : chunks[k]? = some chunk) :
    ∃ r, p.resolve index layout = .ok r ∧ p.chunk r = .ok chunk := by
  obtain ⟨q, hq, hr⟩ := forall₂_getElem?_right h.chunk_eq hchunk
  rw [List.getElem?_take_of_lt (List.getElem?_eq_some_iff.1 hchunk).1, hp] at hq
  cases hq
  exact hr

theorem writes : List.Forall₂ (Place.Writes image) (layout.places.take chunks.length) chunks := by
  refine ((List.forall₂_and_left _ _).2
    ⟨fun p hp => List.mem_of_mem_take hp, h.chunk_eq⟩).imp ?_
  rintro p chunk ⟨hp, r, hr, hchunk⟩
  exact Place.writes_of_chunk h.laidOut hp hchunk h.indexed hr h.label?_eq

theorem map_length_chunks :
    chunks.map List.length = (layout.places.map Place.size).take chunks.length := by
  rw [← List.map_take]
  exact forall₂_map_eq_iff.1 (h.writes.imp fun _ _ hwrites => hwrites.length)

/-- The bytes at an entry are its chunk, which is what the entry writes. -/
theorem slice (hp : layout.places[k]? = some p) (hchunk : chunks[k]? = some chunk) :
    p.Writes image chunk ∧ (image.bytes.drop p.offset).take p.size = chunk := by
  rw [h.bytes_eq]
  exact slice_of_writes h.laidOut h.writes hp hchunk

theorem offset_eq (hp : layout.places[k]? = some p) (hk : k ≤ chunks.length) :
    p.offset = (chunks.take k).flatten.length := by
  have hwrites := List.forall₂_take k h.writes
  rw [List.take_take, Nat.min_eq_left hk] at hwrites
  rw [length_flatten_of_writes hwrites, Layout.offset_eq_sum h.laidOut hp]

/-- The listing has the line of an entry at the position of the entry. -/
theorem line_of_place (hp : layout.places[k]? = some p) :
    image.lines[k]? = some (p.line (decide (k < chunks.length))) := by
  have hlength := h.length_chunks_le
  rw [h.lines_eq]
  by_cases hk : k < chunks.length
  · rw [List.getElem?_append_left (by simpa using ⟨hk, hk.trans_le hlength⟩), List.getElem?_map,
      List.getElem?_take_of_lt hk, hp, decide_eq_true hk]
    rfl
  · have hle : chunks.length ≤ k := Nat.le_of_not_lt hk
    rw [List.getElem?_append_right (by simp; omega), List.getElem?_map, List.length_map,
      List.length_take_of_le hlength, List.getElem?_drop, Nat.add_sub_cancel' hle, hp,
      decide_eq_false hk]
    rfl

theorem slice_line (hp : layout.places[k]? = some p) (hchunk : chunks[k]? = some chunk) :
    image.slice (p.line true) = chunk :=
  (h.slice hp hchunk).2

/-- An image ends where its marker stands. -/
theorem size_eq (hname : marker = some name) :
    code.findIdx? (·.defines name) = some chunks.length ∧
      ∃ p, layout.places[chunks.length]? = some p ∧ image.size = p.offset := by
  have hwritten := (writtenEntries_eq_ok h.indexed).1 h.written
  rw [hname] at hwritten
  obtain ⟨p, hp, -, hextent⟩ := place_of_marker h.laidOut hwritten
  refine ⟨hwritten, p, hp, ?_⟩
  rw [Image.size, h.bytes_eq, length_flatten_of_writes h.writes, hextent]

theorem size_of_entry {size : Nat} (hp : layout.places[k]? = some p)
    (hsize : p.cursor.size p.entry p.form = .ok size) : p.size = size := by
  have hlaid := Layout.size_of_mem h.laidOut (List.mem_of_getElem? hp)
  rw [hsize] at hlaid
  exact (Except.ok.inj hlaid).symm

/-! ## Data -/

/-- A label as data is written as its address, which has 32 bits. -/
theorem chunk_of_address {label : Option String} (hp : layout.places[k]? = some p)
    (hchunk : chunks[k]? = some chunk) (hentry : p.entry = .data label (.address name)) :
    ∃ target, image.label? name = some target ∧ target.address < 2 ^ 32 ∧
      chunk = LittleEndian.ofNat 4 target.address := by
  obtain ⟨r, hr, hchunk⟩ := h.resolve_of_chunk hp hchunk
  obtain ⟨target, hdefinition, htarget⟩ := Place.resolve_address h.indexed h.laidOut hr hentry
  rw [Place.chunk, hentry] at hchunk
  simp only [htarget, DataValue.encode_address] at hchunk
  split at hchunk
  case isFalse => cases hchunk
  case isTrue hfits =>
    cases hchunk
    have hlt : target.address < 2 ^ 32 := by exact_mod_cast hfits.2
    refine ⟨target.labelAddress, by rw [h.label?_eq, hdefinition]; rfl, hlt, ?_⟩
    show LittleEndian.ofNat 4 _ = LittleEndian.ofNat 4 target.address
    congr 1
    omega

theorem chunk_of_data {label : Option String} {v : DataValue} (hp : layout.places[k]? = some p)
    (hchunk : chunks[k]? = some chunk) (hentry : p.entry = .data label v) :
    chunk = v.bytesIn image := by
  cases v with
  | address name =>
    obtain ⟨target, htarget, -, rfl⟩ := h.chunk_of_address hp hchunk hentry
    rw [DataValue.bytesIn, htarget]
    rfl
  | _ =>
    obtain ⟨r, -, hchunk⟩ := h.resolve_of_chunk hp hchunk
    rw [Place.chunk, hentry] at hchunk
    exact (Except.ok.inj hchunk).symm

/-- The data at the start of a stream is at the start of the image. -/
theorem take_data {values : List DataValue} {rest : Code}
    (hcode : code = values.map (Entry.data none) ++ rest) (hle : values.length ≤ chunks.length) :
    chunks.take values.length = values.map (DataValue.bytesIn image) := by
  refine List.ext_getElem? fun k => ?_
  by_cases hk : k < values.length
  · obtain ⟨p, chunk, hp, hchunk⟩ := h.exists_chunk (hk.trans_le hle)
    have hentry := Layout.entry_of_getElem? h.laidOut hp
    rw [hcode, List.getElem?_append_left (by simpa using hk), List.getElem?_map,
      List.getElem?_eq_getElem hk] at hentry
    rw [List.getElem?_take_of_lt hk, hchunk, List.getElem?_map, List.getElem?_eq_getElem hk,
      h.chunk_of_data hp hchunk (Option.some.inj hentry).symm]
    rfl
  · rw [List.getElem?_eq_none, List.getElem?_eq_none] <;> simp <;> omega

theorem take_bytes (k : Nat) :
    image.bytes.take (chunks.take k).flatten.length = (chunks.take k).flatten := by
  have hsplit : image.bytes = (chunks.take k).flatten ++ (chunks.drop k).flatten := by
    rw [h.bytes_eq, ← List.flatten_append, List.take_append_drop]
  rw [hsplit, List.take_left]

end Linked

end BootImage
