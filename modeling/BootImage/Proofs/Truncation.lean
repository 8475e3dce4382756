import BootImage.Proofs.Linked

/-!
# Images cut at a marker

From a marker on, entries only take space. Their places and their labels are those that they have
in the whole image, because jump shrinking does not know the marker; only the writing stops. So a
marker cuts the image off and changes nothing in front of the cut. It can make a stream link that
does not link as a whole, if all that cannot be written lies behind it.

* `error_of_mapM_behind` — the error of a traversal lies behind what can be traversed.
* `emit_fewer` — writing fewer entries gives the front of the image.
* `error_of_emit_behind` — what cannot be written lies behind what can.
* `marker_truncates` — a marker only cuts the image off.
-/

namespace BootImage

theorem error_of_mapM_behind {ε α β : Type} {f : α → Except ε β} {xs : List α} {n : Nat}
    {ys : List β} {err : ε} (hfront : (xs.take n).mapM f = .ok ys)
    (herror : xs.mapM f = .error err) :
    ∃ k x, n ≤ k ∧ xs[k]? = some x ∧ f x = .error err := by
  rw [← List.take_append_drop n xs, List.mapM_append, hfront, ok_bind] at herror
  rcases bind_eq_error.1 herror with hback | ⟨zs, -, hok⟩
  · obtain ⟨x, hx, hfx⟩ := error_of_mapM hback
    obtain ⟨j, hj⟩ := List.getElem?_of_mem hx
    rw [List.getElem?_drop] at hj
    exact ⟨n + j, x, Nat.le_add_right n j, hj, hfx⟩
  · cases hok

variable {code : Code} {index : LabelIndex} {r : Relaxed} {image : Image} {written fewer : Nat}

theorem emit_fewer (hle : fewer ≤ written) (hemit : emit code index r written = .ok image) :
    ∃ cut, emit code index r fewer = .ok cut ∧ cut.bytes <+: image.bytes ∧
      cut.labels = image.labels ∧ cut.origin = image.origin ∧ cut.passes = image.passes ∧
      cut.shrunk = image.shrunk := by
  obtain ⟨chunks, hchunks, himage⟩ := bind_eq_ok.1 hemit
  have hfront := mapM_eq_ok_iff.2 (List.forall₂_take fewer (mapM_eq_ok_iff.1 hchunks))
  rw [List.take_take, Nat.min_eq_left hle] at hfront
  have hprefix : (chunks.take fewer).flatten <+: chunks.flatten :=
    ⟨(chunks.drop fewer).flatten, by rw [← List.flatten_append, List.take_append_drop]⟩
  cases himage
  exact ⟨_, bind_eq_ok.2 ⟨_, hfront, rfl⟩, hprefix, rfl, rfl, rfl, rfl⟩

/-- If fewer entries can be written, then one of the others is refused, for a number or as a near
branch out of reach. -/
theorem error_of_emit_behind (hcode : Linkable code index)
    (h : Outcome code index 1 code.allNear r) {err : AssemblyError} (hle : fewer ≤ written)
    (hfewer : emit code index r fewer = .ok image)
    (herror : emit code index r written = .error err) :
    ∃ k p resolution, fewer ≤ k ∧ r.layout.places[k]? = some p ∧
      r.resolutions[k]? = some resolution ∧ p.chunk resolution = .error err ∧
      ((∃ v bits, err = .immediateOverflow v bits) ∨
        ∃ name d, r.layout.OutOfReach p name d ∧
          err = .branchOutOfRange name d (2 ^ (p.mode.width.bits - 1) - 1)) := by
  obtain ⟨chunks, hchunks, -⟩ := bind_eq_ok.1 hfewer
  rcases bind_eq_error.1 herror with hmapM | ⟨_, -, hok⟩
  -- What is written without an error is the front of what is written with one.
  · rw [← Nat.min_eq_left hle, ← List.take_take] at hchunks
    obtain ⟨k, ⟨p, resolution⟩, hk, hx, hchunk⟩ := error_of_mapM_behind hchunks hmapM
    have hzip : (r.layout.places.zip r.resolutions)[k]? = some (p, resolution) := by
      rw [List.getElem?_take] at hx
      split at hx
      · exact hx
      · cases hx
    obtain ⟨hp, hresolution⟩ := List.getElem?_zip_eq_some.1 hzip
    exact ⟨k, p, resolution, hk, hp, hresolution, hchunk,
      h.error_of_chunk hcode (List.mem_of_getElem? hzip) hchunk⟩
  · cases hok

/-- **A marker only cuts the image off.** If a stream links, then it links with any marker that it
defines; the image ends where the marker stands and is otherwise the same. If it only links with
the marker, then an entry behind the marker is refused, for a number or as a near branch out of
reach. -/
theorem marker_truncates {name : String} (hdefined : ∃ e ∈ code, e.defines name = true) :
    (∀ image, link code none = .ok image →
      ∃ place cut, image.label? name = some place ∧ place.offset ≤ image.size ∧
        link code (some name) = .ok cut ∧ cut.bytes = image.bytes.take place.offset ∧
        cut.labels = image.labels ∧ cut.origin = image.origin ∧ cut.passes = image.passes ∧
        cut.shrunk = image.shrunk) ∧
    ∀ cut err, link code (some name) = .ok cut → link code none = .error err →
      ∃ index r marker k p resolution, LabelIndex.build code = .ok index ∧
        relax code index = .ok r ∧ code.findIdx? (·.defines name) = some marker ∧ marker ≤ k ∧
        r.layout.places[k]? = some p ∧ r.resolutions[k]? = some resolution ∧
        p.chunk resolution = .error err ∧
        ((∃ v bits, err = .immediateOverflow v bits) ∨
          ∃ target d, r.layout.OutOfReach p target d ∧
            err = .branchOutOfRange target d (2 ^ (p.mode.width.bits - 1) - 1)) := by
  constructor
  · intro image himage
    obtain ⟨index, r, written, hindex, hrelax, hwritten, hemit⟩ := link_eq_ok.1 himage
    obtain ⟨k, hk⟩ : ∃ k, code.findIdx? (·.defines name) = some k := by
      rw [← Option.isSome_iff_exists, List.findIdx?_isSome, List.any_eq_true]
      exact hdefined
    -- The marker has no part in shrinking, so both images are written from one layout.
    have hall : written = code.length := (writtenEntries_eq_ok hindex).1 hwritten
    have hle : k ≤ written := hall ▸ (List.findIdx?_eq_some_iff_getElem.1 hk).1.le
    obtain ⟨cut, hcut, hprefix, hlabels, hrest⟩ := emit_fewer hle hemit
    have hlink : link code (some name) = .ok cut :=
      link_eq_ok.2 ⟨index, r, k, hindex, hrelax, (writtenEntries_eq_ok hindex).2 hk, hcut⟩
    obtain ⟨_, layout, chunks, hlinked⟩ := linked_of_link hlink
    obtain ⟨hfind, p, hp, hsize⟩ := hlinked.size_eq rfl
    obtain ⟨q, hq, hlabel⟩ := hlinked.label?_of_findIdx? hfind
    rw [hp] at hq
    cases hq
    have hlabel' : image.label? name = some p.labelAddress := by
      rw [← hlabel, Image.label?, Image.label?, hlabels]
    have hbytes : cut.bytes = image.bytes.take p.offset := by
      rw [← hsize]
      exact List.prefix_iff_eq_take.1 hprefix
    refine ⟨p.labelAddress, cut, hlabel', ?_, hlink, hbytes, hlabels, hrest⟩
    show p.offset ≤ image.bytes.length
    rw [← hsize]
    exact hprefix.length_le
  · intro cut err hcut herror
    obtain ⟨index, r, k, hindex, hrelax, hwritten, hemit⟩ := link_eq_ok.1 hcut
    obtain ⟨hcode, hr⟩ := relax_outcome hindex hrelax
    -- The entries in front of the marker can be written, so the one that cannot is behind it.
    have hle := written_le hindex hwritten
    have hall : emit code index r code.length = .error err := by
      simpa [link, hindex, hrelax, writtenEntries] using herror
    obtain ⟨j, p, resolution, hj, hbehind⟩ := error_of_emit_behind hcode hr hle hemit hall
    exact ⟨index, r, k, j, p, resolution, hindex, hrelax,
      (writtenEntries_eq_ok hindex).1 hwritten, hj, hbehind⟩

/-- Two reserved bytes behind a jump; and 16-bit code whose marker stands at an address of 17 bits,
which the instruction behind the marker cannot hold. -/
theorem marker_truncates_bss :
    (∃ image place cut, link [.label "start", .instruction ⟨.jmp, [.label "start"]⟩, .label "bss",
          .times 2 0] none = .ok image ∧ image.label? "bss" = some place ∧
        link [.label "start", .instruction ⟨.jmp, [.label "start"]⟩, .label "bss", .times 2 0]
          (some "bss") = .ok cut ∧ cut.bytes = image.bytes.take place.offset) ∧
    ∃ cut err k p resolution, link [.org 0x10000, .bits .bits16, .label "bss",
          .instruction ⟨.mov, [.register .ax, .label "bss"]⟩] (some "bss") = .ok cut ∧
        link [.org 0x10000, .bits .bits16, .label "bss",
          .instruction ⟨.mov, [.register .ax, .label "bss"]⟩] none = .error err ∧
        2 ≤ k ∧ Place.chunk p resolution = .error err := by
  constructor
  · have himage : link [.label "start", .instruction ⟨.jmp, [.label "start"]⟩, .label "bss",
        .times 2 0] none = .ok _ := rfl
    have hdefined : ∃ e ∈ [Entry.label "start", .instruction ⟨.jmp, [.label "start"]⟩,
        .label "bss", .times 2 0], e.defines "bss" = true :=
      ⟨.label "bss", by simp, by decide⟩
    obtain ⟨hcuts, -⟩ := marker_truncates hdefined
    obtain ⟨place, cut, hplace, -, hcut, hbytes, -⟩ := hcuts _ himage
    exact ⟨_, place, cut, himage, hplace, hcut, hbytes⟩
  · have hcut : link [.org 0x10000, .bits .bits16, .label "bss",
        .instruction ⟨.mov, [.register .ax, .label "bss"]⟩] (some "bss") = .ok _ := rfl
    have herror : link [.org 0x10000, .bits .bits16, .label "bss",
        .instruction ⟨.mov, [.register .ax, .label "bss"]⟩] none = .error _ := rfl
    have hdefined : ∃ e ∈ [Entry.org 0x10000, .bits .bits16, .label "bss",
        .instruction ⟨.mov, [.register .ax, .label "bss"]⟩], e.defines "bss" = true :=
      ⟨.label "bss", by simp, by decide⟩
    obtain ⟨-, hrefused⟩ := marker_truncates hdefined
    obtain ⟨_, _, marker, k, p, resolution, -, -, hmarker, hk, -, -, hchunk, -⟩ :=
      hrefused _ _ hcut herror
    have htwo : some 2 = some marker := hmarker
    exact ⟨_, _, k, p, resolution, hcut, herror, Option.some.inj htwo ▸ hk, hchunk⟩

end BootImage
