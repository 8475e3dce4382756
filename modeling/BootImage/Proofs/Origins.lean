import BootImage.Proofs.Correspondence

/-!
# What origins have a say in

An origin turns offsets into addresses and does nothing else. Streams that differ only in the
origins that they set correspond, so jump shrinking ends alike on them, with the same forms,
offsets, sizes and modes. Their images differ only where an address is written: in the field of a
label operand, in a label as data, and in the displacement of a memory operand with a label.

* `Entry.SameButOrigin` — two entries that differ at most in the origin that they set.
* `Place.AddressByte` — the bytes of an entry in which an address is written.
* `Linked.addressByte_of_ne` — the chunks of one entry differ only there.
* `origins_only_set_addresses` — so do images of streams with different origins.
-/

namespace BootImage

/-- Two entries that differ at most in the origin that they set. -/
inductive Entry.SameButOrigin : Entry → Entry → Prop
  | org (origin origin' : UInt32) : SameButOrigin (.org origin) (.org origin')
  | refl (e : Entry) : SameButOrigin e e

/-- Two runs of jump shrinking that take as many passes and give entries the same places. -/
structure Relaxed.SameShape (r r' : Relaxed) : Prop where
  places : List.Forall₂ Place.SameSpace r.layout.places r'.layout.places
  stop : r'.layout.stop = r.layout.stop
  passes : r'.passes = r.passes

/-- Byte `b` of an entry is part of an address that is written for a label. -/
inductive Place.AddressByte (p : Place) (b : Nat) : Prop
  /-- A label as data is four bytes of address. -/
  | data {label : Option String} {name : String} :
      p.entry = .data label (.address name) → b < 4 → AddressByte p b
  /-- The field for a label operand is at the end of the instruction. -/
  | immediate {i : Instruction} {name : String} :
      p.entry = .instruction i → i.absoluteLabel? = some name →
      p.size ≤ b + (i.labelWidth p.mode).bytes → b < p.size → AddressByte p b
  /-- The displacement with a label is in front of the immediate field. -/
  | displacement {i : Instruction} {m : Memory} {ref : String × Int} {e : Encoding} :
      p.entry = .instruction i → i.memory? = some m → m.labelRef? = some ref →
      i.encoding (.sizing p.mode p.form) = .ok e →
      p.size ≤ b + (m.addressWidth p.mode).bytes + e.immediate.length →
      b + e.immediate.length < p.size → AddressByte p b

/-! ## Streams with different origins -/

namespace Entry.SameButOrigin

variable {e e' : Entry} {code code' : Code}

theorem corresponds (index : LabelIndex) (h : e.SameButOrigin e') :
    e.Corresponds Eq index index e' := by
  cases h with
  | org origin origin' =>
    refine ⟨?_, fun _ => rfl, rfl, .none, .none, fun _ _ => .ok rfl⟩
    intro c c' form hoffset hmode
    exact .ok rfl
  | refl e => exact e.corresponds_self fun _ => rfl

/-- An entry for which an address is written is the same in both streams. -/
theorem eq_of_usesAddress (h : e.SameButOrigin e') (huses : e.UsesAddress) : e' = e := by
  cases h with
  | refl e => rfl
  | org origin origin' => rcases huses with hkind | hmemory <;> contradiction

theorem definitionsFrom_eq (hcode : List.Forall₂ Entry.SameButOrigin code code') (position : Nat) :
    LabelIndex.definitionsFrom position code' = LabelIndex.definitionsFrom position code := by
  induction hcode generalizing position with
  | nil => rfl
  | cons he _ ih =>
    have hrest := ih (position + 1)
    cases he <;> simp only [LabelIndex.definitionsFrom, Entry.label?, hrest]

theorem build_eq (hcode : List.Forall₂ Entry.SameButOrigin code code') :
    LabelIndex.build code' = LabelIndex.build code := by
  rw [LabelIndex.build, LabelIndex.build, definitionsFrom_eq hcode]

theorem writtenEntries_eq (hcode : List.Forall₂ Entry.SameButOrigin code code')
    (index : LabelIndex) (marker : Option String) :
    writtenEntries code' index marker = writtenEntries code index marker := by
  cases marker with
  | none => rw [writtenEntries, writtenEntries, hcode.length_eq]
  | some name => rfl

end Entry.SameButOrigin

/-! ## Where runs of bytes differ -/

section Bytes

variable {front front' back back' : List UInt8} {b : Nat}

theorem lt_length_of_ne (hlength : back'.length = back.length) (h : back'[b]? ≠ back[b]?) :
    b < back.length := by
  by_contra hge
  rw [List.getElem?_eq_none (by omega), List.getElem?_eq_none (by omega)] at h
  exact h rfl

/-- Two runs of bytes that differ do so in their front or in their back. -/
theorem append_ne (hlength : front'.length = front.length)
    (h : (front' ++ back')[b]? ≠ (front ++ back)[b]?) :
    front'[b]? ≠ front[b]? ∨
      front.length ≤ b ∧ back'[b - front.length]? ≠ back[b - front.length]? := by
  by_cases hb : b < front.length
  · rw [List.getElem?_append_left (hlength ▸ hb), List.getElem?_append_left hb] at h
    exact .inl h
  · have hle : front.length ≤ b := Nat.le_of_not_lt hb
    rw [List.getElem?_append_right (hlength ▸ hle), List.getElem?_append_right hle, hlength] at h
    exact .inr ⟨hle, h⟩

theorem exists_of_flatten_ne {chunks chunks' : List (List UInt8)}
    (hlength : List.Forall₂ (fun chunk chunk' => chunk'.length = chunk.length) chunks chunks')
    (h : chunks'.flatten[b]? ≠ chunks.flatten[b]?) :
    ∃ k chunk chunk', chunks[k]? = some chunk ∧ chunks'[k]? = some chunk' ∧
      (chunks.take k).flatten.length ≤ b ∧
      chunk'[b - (chunks.take k).flatten.length]? ≠
        chunk[b - (chunks.take k).flatten.length]? := by
  induction hlength generalizing b with
  | nil => exact absurd rfl h
  | @cons chunk chunk' chunks chunks' heq _ ih =>
    rw [List.flatten_cons, List.flatten_cons] at h
    rcases append_ne heq h with hfirst | ⟨hle, hrest⟩
    · exact ⟨0, chunk, chunk', rfl, rfl, Nat.zero_le b, hfirst⟩
    · obtain ⟨k, c, c', hc, hc', hbound, hne⟩ := ih hrest
      refine ⟨k + 1, c, c', hc, hc', ?_, ?_⟩
      · rw [List.take_succ_cons, List.flatten_cons, List.length_append]
        omega
      · rwa [List.take_succ_cons, List.flatten_cons, List.length_append, ← Nat.sub_sub]

end Bytes

namespace Encoding

variable (e : Encoding) {symbol symbol' value value' : Option (Width × Int)} {mode : Mode}

/-- The bytes in front of the displacement. -/
def head (mode : Mode) : List UInt8 :=
  e.overrides mode ++ (e.opcode.bytes ++
    e.addressing.elim [] fun a => a.modrm.byte :: (a.sib.map Sib.byte).toList)

/-- The bytes of the displacement. -/
def displacement : List UInt8 :=
  e.addressing.elim [] Addressing.displacement

theorem bytes_eq_fields (mode : Mode) :
    e.bytes mode = e.head mode ++ (e.displacement ++ e.immediate) := by
  cases h : e.addressing <;> simp [bytes, body, head, displacement, Addressing.bytes, h]

theorem head_filled : (e.filled symbol value).head mode = e.head mode := by
  cases h : e.addressing <;> cases symbol <;>
    simp [filled, head, overrides, addressOverride, operandOverride, h]

theorem length_displacement_filled (hsymbol : symbol'.map Prod.fst = symbol.map Prod.fst) :
    (e.filled symbol' value').displacement.length =
      (e.filled symbol value).displacement.length := by
  cases h : e.addressing <;> cases symbol <;> cases symbol' <;>
    simp_all [filled, displacement]

theorem length_displacement_le (value : Option (Width × Int)) (w : Width) (v : Int) :
    (e.filled (some (w, v)) value).displacement.length ≤ w.bytes := by
  cases h : e.addressing <;> simp [filled, displacement, h]

theorem filled_ne (hsymbol : symbol'.map Prod.fst = symbol.map Prod.fst)
    (hvalue : value'.map Prod.fst = value.map Prod.fst) {b n : Nat}
    (hlength : ((e.filled symbol value).bytes mode).length = n)
    (h : ((e.filled symbol' value').bytes mode)[b]? ≠ ((e.filled symbol value).bytes mode)[b]?) :
    (∃ w v, value = some (w, v) ∧ n ≤ b + w.bytes ∧ b < n) ∨
      ∃ w v, symbol = some (w, v) ∧
        n ≤ b + w.bytes + (e.filled symbol value).immediate.length ∧
        b + (e.filled symbol value).immediate.length < n := by
  rw [bytes_eq_fields, bytes_eq_fields, head_filled, head_filled] at h
  rw [bytes_eq_fields, head_filled, List.length_append, List.length_append] at hlength
  rcases append_ne rfl h with hhead | ⟨hle, hfields⟩
  · exact absurd rfl hhead
  rcases append_ne (e.length_displacement_filled hsymbol) hfields with hdisp | ⟨hle', himm⟩
  · -- The displacement differs, so it is one that is filled.
    have hlt := lt_length_of_ne (e.length_displacement_filled hsymbol) hdisp
    rcases symbol with _ | ⟨w, v⟩
    · obtain rfl : symbol' = none := by simpa using hsymbol
      exact absurd rfl hdisp
    · have hwidth := e.length_displacement_le value w v
      exact .inr ⟨w, v, rfl, by omega, by omega⟩
  · have hlt := lt_length_of_ne (e.length_immediate_filled hvalue) himm
    rcases value with _ | ⟨w, v⟩
    · obtain rfl : value' = none := by simpa using hvalue
      exact absurd rfl himm
    · have hwidth : (e.filled symbol (some (w, v))).immediate.length = w.bytes :=
        LittleEndian.length_ofInt _ _
      exact .inl ⟨w, v, rfl, by omega, by omega⟩

end Encoding

/-! ## The bytes of one entry -/

/-- An address is written for a label as data or for an instruction other than a branch. -/
theorem Entry.UsesAddress.cases {e : Entry} (h : e.UsesAddress) :
    (∃ label name, e = .data label (.address name)) ∨
      ∃ i, e = .instruction i ∧ i.branchTarget? = none := by
  cases e with
  | instruction i =>
    refine .inr ⟨i, rfl, ?_⟩
    rcases h with hkind | hmemory
    · cases hbranch : i.branchTarget? with
      | none => rfl
      | some target => simp [Entry.reference?, hbranch] at hkind
    · obtain ⟨ref, href⟩ := Option.isSome_iff_exists.1 hmemory
      obtain ⟨m, hm, -⟩ := Option.bind_eq_some_iff.1 href
      exact Instruction.branchTarget?_of_memory? hm
  | data label value =>
    cases value with
    | address name => exact .inl ⟨label, name, rfl⟩
    | _ => rcases h with hkind | hmemory <;> contradiction
  | _ => rcases h with hkind | hmemory <;> contradiction

/-- An instruction with other values for its labels differs only in the fields for them. -/
theorem Place.addressByte_of_filled_ne {p : Place} {i : Instruction} {e : Encoding}
    (hi : p.entry = .instruction i) (hbranch : i.branchTarget? = none)
    (he : i.encoding (.sizing p.mode p.form) = .ok e) {r : Resolution} {cx : Context}
    (hmode : cx.mode = p.mode)
    (hlength : ((e.filled (i.symbolField? (p.context r)) (i.valueField? (p.context r))).bytes
      p.mode).length = p.size)
    {b : Nat} (hne : ((e.filled (i.symbolField? cx) (i.valueField? cx)).bytes p.mode)[b]? ≠
      ((e.filled (i.symbolField? (p.context r)) (i.valueField? (p.context r))).bytes p.mode)[b]?) :
    p.AddressByte b := by
  have hsymbols := i.width_symbolField? cx (p.context r) hmode
  have hvalues := i.width_valueField? cx (p.context r) hmode
  rcases e.filled_ne hsymbols hvalues hlength hne with
    ⟨w, v, hvalue, hle, hlt⟩ | ⟨w, v, hsymbol, hle, hlt⟩
  · obtain ⟨name, hname, heq⟩ := Option.map_eq_some_iff.1 hvalue
    cases heq
    exact .immediate hi hname hle hlt
  · obtain ⟨m, hm, hfield⟩ := Option.bind_eq_some_iff.1 hsymbol
    obtain ⟨ref, href, heq⟩ := Option.map_eq_some_iff.1 hfield
    cases heq
    rw [Instruction.length_immediate hbranch (p.context r) he] at hle hlt
    exact .displacement hi hm href he hle hlt

namespace Linked

variable {code code' : Code} {marker : Option String} {image image' : Image} {index : LabelIndex}
  {layout layout' : Layout} {chunks chunks' : List (List UInt8)} {k : Nat} {p p' : Place}
  {chunk chunk' : List UInt8}

variable (h : Linked code marker image index layout chunks)
  (h' : Linked code' marker image' index layout' chunks')
  (hlayout : layout.Corresponds Eq index index layout')

include h h' hlayout

/-- The chunks of one entry in two images differ only where an address is written. -/
theorem addressByte_of_ne (hp : layout.places[k]? = some p) (hp' : layout'.places[k]? = some p')
    (hentry : p.entry.SameButOrigin p'.entry) (hchunk : chunks[k]? = some chunk)
    (hchunk' : chunks'[k]? = some chunk') {b : Nat} (hne : chunk'[b]? ≠ chunk[b]?) :
    p.AddressByte b := by
  have hplace : p.Corresponds Eq index index p' := by
    have hrel := rel_getElem? hlayout.places k
    rwa [hp, hp', Option.rel_some_some] at hrel
  obtain ⟨r, hr, hwritten⟩ := h.resolve_of_chunk hp hchunk
  obtain ⟨r', hr', hwritten'⟩ := h'.resolve_of_chunk hp' hchunk'
  -- Were no address written, both chunks would be the same bytes.
  have huses : p.entry.UsesAddress := by
    by_contra hnone
    have heq := (resolve_alike hlayout hplace).rel_of_ok hr hr' fun huses => absurd huses hnone
    rw [heq] at hwritten'
    exact hne (by rw [(hplace.chunk_alike r).rel_of_ok hwritten hwritten'])
  have hsame := hentry.eq_of_usesAddress huses
  have hlength : chunk.length = p.size := (h.slice hp hchunk).1.length
  have hlength' : chunk'.length = p'.size := (h'.slice hp' hchunk').1.length
  rcases huses.cases with ⟨label, name, hdata⟩ | ⟨i, hi, hbranch⟩
  · obtain ⟨target, -, haddress⟩ := (h.slice hp hchunk).1.address label name hdata
    have hlt := lt_length_of_ne (by rw [hlength', hplace.size, hlength]) hne
    rw [haddress, LittleEndian.length_ofInt] at hlt
    exact .data hdata hlt
  · have hi' : p'.entry = .instruction i := hsame.trans hi
    obtain ⟨e, he, rfl⟩ := Place.filled_of_chunk h.laidOut (List.mem_of_getElem? hp) hwritten hi
      hbranch
    obtain ⟨e', he', rfl⟩ := Place.filled_of_chunk h'.laidOut (List.mem_of_getElem? hp') hwritten'
      hi' hbranch
    rw [hplace.mode, hplace.form, he] at he'
    cases he'
    rw [hplace.mode] at hne
    exact Place.addressByte_of_filled_ne hi hbranch he hplace.mode hlength hne

end Linked

/-! ## Images -/

section Images

variable {code code' : Code} {marker : Option String} {image image' : Image} {index : LabelIndex}
  {layout layout' : Layout} {chunks chunks' : List (List UInt8)}
  (h : Linked code marker image index layout chunks)
  (h' : Linked code' marker image' index layout' chunks')
  (hcode : List.Forall₂ Entry.SameButOrigin code code')
  (hlayout : layout.Corresponds Eq index index layout')

include h h' hcode hlayout

theorem Linked.map_length_chunks_eq : chunks'.map List.length = chunks.map List.length := by
  have hwritten := h'.written
  rw [Entry.SameButOrigin.writtenEntries_eq hcode, h.written] at hwritten
  rw [h.map_length_chunks, h'.map_length_chunks, hlayout.sizes, Except.ok.inj hwritten]

/-- Two images of streams that differ only in origins differ only in bytes of addresses. -/
theorem Linked.exists_addressByte_of_ne {b : Nat} (hne : image'.bytes[b]? ≠ image.bytes[b]?) :
    ∃ p ∈ layout.places, p.offset ≤ b ∧ p.AddressByte (b - p.offset) := by
  have hlengths : List.Forall₂ (fun chunk chunk' : List UInt8 => chunk'.length = chunk.length)
      chunks chunks' :=
    forall₂_map_eq_iff.2 (h.map_length_chunks_eq h' hcode hlayout)
  rw [h.bytes_eq, h'.bytes_eq] at hne
  obtain ⟨k, chunk, chunk', hchunk, hchunk', hle, hdiffer⟩ := exists_of_flatten_ne hlengths hne
  have hk : k < chunks.length := (List.getElem?_eq_some_iff.1 hchunk).1
  obtain ⟨p, -, hp, -⟩ := h.exists_chunk hk
  obtain ⟨p', hp', -⟩ := forall₂_getElem? hlayout.places hp
  have hentry : p.entry.SameButOrigin p'.entry := by
    have hrel := rel_getElem? hcode k
    rwa [Layout.entry_of_getElem? h.laidOut hp, Layout.entry_of_getElem? h'.laidOut hp',
      Option.rel_some_some] at hrel
  rw [← h.offset_eq hp hk.le] at hle hdiffer
  exact ⟨p, List.mem_of_getElem? hp, hle,
    h.addressByte_of_ne h' hlayout hp hp' hentry hchunk hchunk' hdiffer⟩

end Images

/-- **Origins only set addresses.** On streams that differ only in the origins that they set, jump
shrinking fails alike or gives every entry the same place. If both streams link, the images have the
same size, labels at the same offsets, and as many passes and short jumps, and differ only in bytes
of addresses. A stream that writes no address links alike, to the same bytes, whatever its origins
are. -/
theorem origins_only_set_addresses {code code' : Code}
    (hcode : List.Forall₂ Entry.SameButOrigin code code') :
    Alike Eq Relaxed.SameShape (LabelIndex.build code >>= relax code)
      (LabelIndex.build code' >>= relax code') ∧
    (∀ marker image image', link code marker = .ok image → link code' marker = .ok image' →
      image'.size = image.size ∧
      (∀ name, (image'.label? name).map LabelAddress.offset =
        (image.label? name).map LabelAddress.offset) ∧
      image'.passes = image.passes ∧ image'.shrunk = image.shrunk ∧
      ∃ index r, LabelIndex.build code = .ok index ∧ relax code index = .ok r ∧
        ∀ b, image'.bytes[b]? ≠ image.bytes[b]? →
          ∃ p ∈ r.layout.places, p.offset ≤ b ∧ p.AddressByte (b - p.offset)) ∧
    ((∀ e ∈ code, ¬e.UsesAddress) → ∀ marker,
      Alike Eq (fun image image' => image'.bytes = image.bytes)
        (link code marker) (link code' marker)) := by
  -- An origin never has a say in the size of an entry or in which entry defines a label.
  have hcorresponds (index : LabelIndex) :
      List.Forall₂ (Entry.Corresponds Eq index index) code code' :=
    hcode.imp fun _ _ he => he.corresponds index
  have hbuild := Entry.SameButOrigin.build_eq hcode
  refine ⟨?alike, ?images, ?same⟩
  case alike =>
    rw [hbuild]
    cases hindex : LabelIndex.build code with
    | error err => exact .error rfl
    | ok index =>
      refine (relax_alike (hcorresponds index) fun _ => rfl).mono fun r r' _ _ hr => ?_
      exact ⟨hr.layout.places.imp fun _ _ hp => hp.toSameSpace, hr.layout.stop, hr.passes⟩
  case images =>
    intro marker image image' himage himage'
    obtain ⟨index, -, -, hindex, -⟩ := link_eq_ok.1 himage
    obtain ⟨r, r', chunks, chunks', hrelax, hr, h, h', hpasses, hshrunk⟩ :=
      linked_of_links (fun _ => rfl) hindex (hbuild.trans hindex) (hcorresponds index) himage
        himage'
    refine ⟨?_, fun name => ?_, hpasses, hshrunk, index, r, hindex, hrelax, fun b hne =>
      h.exists_addressByte_of_ne h' hcode hr.layout hne⟩
    -- The bytes may differ, the lengths of the chunks do not.
    · rw [Image.size, Image.size, h.bytes_eq, h'.bytes_eq, List.length_flatten, List.length_flatten,
        h.map_length_chunks_eq h' hcode hr.layout]
    · rcases rel_iff.1 (h.label?_rel h' hr.layout (rfl : index.get? name = index.get? name)) with
        ⟨hlabel, hlabel'⟩ | ⟨label, label', hlabel, hlabel', hoffset, -⟩
      · rw [hlabel, hlabel']
      · rw [hlabel, hlabel', Option.map_some, Option.map_some, hoffset]
  case same =>
    intro hnone marker
    refine (link_alike (fun _ => rfl) ?_ (fun index index' hindex hindex' => ?_)
      fun e he huses => absurd huses (hnone e he)).mono fun _ _ _ _ h => h.1
    · rw [hbuild]
      exact (Alike.refl (fun _ => rfl) _).mono fun _ _ _ _ _ => trivial
    · rw [hbuild, hindex] at hindex'
      cases hindex'
      rw [Entry.SameButOrigin.writtenEntries_eq hcode]
      exact ⟨hcorresponds index, .refl (fun _ => rfl) _⟩

/-- A jump and the address of its target, loaded at two places: the images have the same size and
differ in a byte of the address. The jump alone is the same at both places. -/
theorem origins_only_set_addresses_moved :
    (∃ image image', link [.org 0x1000, .label "a", .instruction ⟨.jmp, [.label "a"]⟩,
          .data none (.address "a")] none = .ok image ∧
        link [.org 0x2000, .label "a", .instruction ⟨.jmp, [.label "a"]⟩,
          .data none (.address "a")] none = .ok image' ∧
        image'.size = image.size ∧ image'.bytes[3]? ≠ image.bytes[3]? ∧
        ∃ p : Place, p.offset ≤ 3 ∧ p.AddressByte (3 - p.offset)) ∧
    ∃ image image', link [.org 0x1000, .label "a", .instruction ⟨.jmp, [.label "a"]⟩] none =
        .ok image ∧
      link [.org 0x2000, .label "a", .instruction ⟨.jmp, [.label "a"]⟩] none = .ok image' ∧
      image'.bytes = image.bytes := by
  constructor
  · have himage : link [.org 0x1000, .label "a", .instruction ⟨.jmp, [.label "a"]⟩,
        .data none (.address "a")] none = .ok _ := rfl
    have himage' : link [.org 0x2000, .label "a", .instruction ⟨.jmp, [.label "a"]⟩,
        .data none (.address "a")] none = .ok _ := rfl
    obtain ⟨-, himages, -⟩ := origins_only_set_addresses
      (.cons (.org 0x1000 0x2000) (.cons (.refl (.label "a"))
        (.cons (.refl (.instruction ⟨.jmp, [.label "a"]⟩))
          (.cons (.refl (.data none (.address "a"))) .nil))))
    obtain ⟨hsize, -, -, -, _, r, -, -, hbytes⟩ := himages none _ _ himage himage'
    have hne : some (0x20 : UInt8) ≠ some 0x10 := by decide
    obtain ⟨p, -, hle, hbyte⟩ := hbytes 3 hne
    exact ⟨_, _, himage, himage', hsize, hne, p, hle, hbyte⟩
  · have himage : link [.org 0x1000, .label "a", .instruction ⟨.jmp, [.label "a"]⟩] none =
        .ok _ := rfl
    have himage' : link [.org 0x2000, .label "a", .instruction ⟨.jmp, [.label "a"]⟩] none =
        .ok _ := rfl
    obtain ⟨-, -, hsame⟩ := origins_only_set_addresses
      (.cons (.org 0x1000 0x2000) (.cons (.refl (.label "a"))
        (.cons (.refl (.instruction ⟨.jmp, [.label "a"]⟩)) .nil)))
    have hnone : ∀ e ∈ [Entry.org 0x1000, .label "a", .instruction ⟨.jmp, [.label "a"]⟩],
        ¬e.UsesAddress := by decide
    exact ⟨_, _, himage, himage', (hsame hnone none).rel_of_ok himage himage'⟩

end BootImage
