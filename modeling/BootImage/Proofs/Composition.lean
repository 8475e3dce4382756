import BootImage.Proofs.Directives
import BootImage.Proofs.Linked
import BootImage.Proofs.Shortening
import BootImage.Session
import Mathlib.Tactic.IntervalCases

/-!
# The layout of a multiboot image

The composition puts a header and an entry stub in front of the methods, and the end of the data
and the stack behind everything else. The header holds addresses that are known only at the end:
it refers to the labels there by name. So the composition is as it should be if nothing between
its two ends takes one of these names, or sets an origin of its own.

* `findIdx?_entryLabel`, `findIdx?_tail` — where the labels of the composition are defined.
* `take_header` — an image starts with the header.
* `origin_of_compose` — all labels are under the origin that the entry stub sets.
* `build_multiboot` — what a built image looks like.
-/

namespace BootImage.Multiboot

/-- The labels that a composition makes for the image. -/
def imageLabels : List String :=
  [entryLabel, haltLabel, dataEndLabel, stackTopLabel]

/-- What a composition takes from elsewhere: the methods, the static fields, and the data. -/
def contents (program : Program) (data : Code) : Code :=
  methodCode program ++ staticData program ++ data

/-- A program and its data that leave a composition as it is: they set no origin, and define none
of the labels of the image. -/
structure Composable (program : Program) (data : Code) : Prop where
  noOrigin : ∀ origin, Entry.org origin ∉ methodCode program ++ data
  fresh : ∀ name ∈ imageLabels, ∀ e ∈ contents program data, e.defines name = false

/-- The values in the header. -/
def headerValues (config : Config) : List DataValue :=
  [ .dword magic,
    .dword config.flags,
    .dword (checksum magic config.flags),
    .dword config.loadAddress,
    .dword config.loadAddress,
    .address dataEndLabel,
    .address stackTopLabel,
    .address entryLabel ]

/-- Everything in front of the tail. -/
def body (program : Program) (config : Config) (data : Code) : Code :=
  header config ++ entryStub config program ++ methodCode program ++ shiftRoutines ++
    staticData program ++ data

variable {program : Program} {config : Config} {data : Code} {name : String}

theorem header_eq : header config = (headerValues config).map (Entry.data none) := rfl

theorem compose_eq : compose program config data = body program config data ++ tail config := rfl

/-! ## Labels -/

theorem defines_header {e : Entry} (he : e ∈ header config) : e.defines name = false := by
  simp only [header, List.mem_cons, List.not_mem_nil, or_false] at he
  rcases he with rfl | rfl | rfl | rfl | rfl | rfl | rfl | rfl <;> rfl

theorem defines_constructorCall {e : Entry} (he : e ∈ constructorCall config program) :
    e.defines name = false := by
  unfold constructorCall at he
  split at he
  · split at he
    · rw [List.mem_singleton.1 he]
      rfl
    · cases he
  · cases he

theorem defines_entryStub (hentry : Text.sameName entryLabel name = false)
    (hhalt : Text.sameName haltLabel name = false) {e : Entry}
    (he : e ∈ entryStub config program) : e.defines name = false := by
  simp only [entryStub, List.mem_append, List.mem_cons, List.not_mem_nil, or_false] at he
  rcases he with ((rfl | rfl | rfl) | he) | (rfl | rfl | rfl)
  case inl.inr => exact defines_constructorCall he
  case inl.inl.inr.inl => exact hentry
  case inr.inr.inl => exact hhalt
  all_goals rfl

/-- The labels of the tail are defined in none of the pieces that do not depend on the program. -/
theorem defines_body (hname : name = dataEndLabel ∨ name = stackTopLabel)
    (hfresh : ∀ e ∈ contents program data, e.defines name = false)
    {e : Entry} (he : e ∈ body program config data) : e.defines name = false := by
  have hstub : Text.sameName entryLabel name = false ∧ Text.sameName haltLabel name = false := by
    rcases hname with rfl | rfl <;> decide
  have hroutines : ∀ e ∈ shiftRoutines, e.defines name = false := by
    rcases hname with rfl | rfl <;> decide +kernel
  simp only [body, List.mem_append] at he
  rcases he with ((((he | he) | he) | he) | he) | he
  · exact defines_header he
  · exact defines_entryStub hstub.1 hstub.2 he
  · exact hfresh e (by simp [contents, he])
  · exact hroutines e he
  · exact hfresh e (by simp [contents, he])
  · exact hfresh e (by simp [contents, he])

theorem findIdx?_entryLabel :
    (compose program config data).findIdx? (·.defines entryLabel) = some 9 := rfl

/-- A label of the tail is defined there, if it is not defined before. -/
theorem findIdx?_tail (hname : name = dataEndLabel ∨ name = stackTopLabel)
    (hfresh : ∀ e ∈ contents program data, e.defines name = false)
    {k : Nat} (htail : (tail config).findIdx? (·.defines name) = some k) :
    (compose program config data).findIdx? (·.defines name) =
      some ((body program config data).length + k) :=
  findIdx?_append_of_fresh (fun _ => defines_body hname hfresh) htail

/-! ## Origins -/

/-- Everything behind the origin that the entry stub sets. -/
def loaded (program : Program) (config : Config) (data : Code) : Code :=
  (entryStub config program).tail ++ methodCode program ++ shiftRoutines ++
    staticData program ++ data ++ tail config

theorem compose_eq_loaded :
    compose program config data =
      header config ++ .org config.loadAddress :: loaded program config data := rfl

theorem shiftRoutines_plain :
    ∀ e ∈ shiftRoutines, e.isDirective = false ∨ e.label?.isSome = true := by
  decide +kernel

theorem org_notMem_loaded (horigin : ∀ origin, Entry.org origin ∉ methodCode program ++ data)
    (origin : UInt32) : Entry.org origin ∉ loaded program config data := by
  intro hmem
  have hcall : Entry.org origin ∉ constructorCall config program := by
    unfold constructorCall
    split
    · split <;> simp [Entry.call, Entry.machine]
    · simp
  simp only [loaded, List.mem_append] at hmem
  rcases hmem with ((((hmem | hmem) | hmem) | hmem) | hmem) | hmem
  · simp [entryStub, Entry.mov, Entry.call, Entry.jmp, Entry.machine, hcall] at hmem
  · exact horigin origin (List.mem_append_left _ hmem)
  · rcases shiftRoutines_plain _ hmem with h | h <;> cases h
  · simp [staticData, Entry.named] at hmem
  · exact horigin origin (List.mem_append_right _ hmem)
  · simp [tail] at hmem

/-! ## Images -/

section Images

variable {image : Image}

theorem length_header_bytes :
    ((headerValues config).map (DataValue.bytesIn image)).flatten.length = 32 := by
  simp [headerValues, DataValue.bytesIn]

variable {index : LabelIndex} {layout : Layout} {chunks : List (List UInt8)}
  {p : Place}

variable (h : Linked (compose program config data) (some dataEndLabel) image index layout chunks)
include h

/-- The header and the entry stub are always written. -/
theorem length_header_entryStub_le :
    (header config ++ entryStub config program).length ≤ chunks.length := by
  obtain ⟨hmarker, -⟩ := h.size_eq rfl
  have hsplit : compose program config data = (header config ++ entryStub config program) ++
      (methodCode program ++ shiftRoutines ++ staticData program ++ data ++ tail config) := by
    simp [compose]
  rw [hsplit] at hmarker
  refine length_le_of_findIdx? (fun e he => ?_) hmarker
  rcases List.mem_append.1 he with he | he
  · exact defines_header he
  · exact defines_entryStub (by decide) (by decide) he

theorem eleven_le_length : 11 ≤ chunks.length := by
  have hle := length_header_entryStub_le h
  simp only [header, entryStub, List.length_append, List.length_cons, List.length_nil] at hle
  omega

theorem take_chunks_header :
    chunks.take 8 = (headerValues config).map (DataValue.bytesIn image) := by
  have hle := eleven_le_length h
  have hlength : (headerValues config).length = 8 := rfl
  have hsplit : compose program config data = (headerValues config).map (Entry.data none) ++
      .org config.loadAddress :: loaded program config data := by
    rw [compose_eq_loaded, header_eq]
  exact h.take_data hsplit (by omega)

theorem take_header :
    image.bytes.take 32 = ((headerValues config).map (DataValue.bytesIn image)).flatten := by
  have hbytes := h.take_bytes 8
  rwa [take_chunks_header h, length_header_bytes] at hbytes

theorem header_word {k : Nat} {v : DataValue} (hv : (headerValues config)[k]? = some v) :
    (image.bytes.drop (4 * k)).take 4 = v.bytesIn image := by
  have hk : k < 8 := (List.getElem?_eq_some_iff.1 hv).1
  have hheader := congrArg (fun bytes => (bytes.drop (4 * k)).take 4) (take_header h)
  simp only [List.drop_take, List.take_take] at hheader
  rw [Nat.min_eq_left (by omega)] at hheader
  rw [hheader]
  clear hheader
  interval_cases k <;> cases hv <;> rfl

theorem offset_origin (hp : layout.places[8]? = some p) : p.offset = 32 := by
  have hle := eleven_le_length h
  rw [h.offset_eq hp (by omega), take_chunks_header h, length_header_bytes]

theorem offset_entry {k : Nat} (hk : k = 9 ∨ k = 10) (hp : layout.places[k]? = some p) :
    p.offset = 32 := by
  obtain ⟨q₈, hq₈, he₈⟩ := Layout.place_of_getElem? h.laidOut
    (i := 8) (e := .org config.loadAddress) rfl
  obtain ⟨q₉, hq₉, he₉⟩ := Layout.place_of_getElem? h.laidOut (i := 9) (e := .label entryLabel) rfl
  have hsize₈ : q₈.size = 0 := h.size_of_entry hq₈ (by rw [he₈]; rfl)
  have hsize₉ : q₉.size = 0 := h.size_of_entry hq₉ (by rw [he₉]; rfl)
  have hoffset₉ := Layout.offset_succ h.laidOut hq₈ hq₉
  rw [Place.stop, hsize₈, offset_origin h hq₈] at hoffset₉
  rcases hk with rfl | rfl
  · rw [hq₉] at hp
    cases hp
    exact hoffset₉
  · rw [Layout.offset_succ h.laidOut hq₉ hp, Place.stop, hsize₉, hoffset₉]

/-- Behind the entry stub's origin, every entry is under it. -/
theorem origin_of_compose (horigin : ∀ origin, Entry.org origin ∉ methodCode program ++ data)
    {k : Nat} (hk : 9 ≤ k) (hp : layout.places[k]? = some p) : p.origin = config.loadAddress := by
  obtain ⟨j, rfl⟩ := Nat.exists_eq_add_of_le hk
  have htake : (compose program config data).take (9 + j) =
      header config ++ .org config.loadAddress :: (loaded program config data).take j := by
    have hlength : 9 + j = (header config).length + (j + 1) := by
      simp only [header, List.length_cons, List.length_nil]
      omega
    rw [compose_eq_loaded, hlength, List.take_length_add_append, List.take_succ_cons]
  rw [Layout.origin_eq h.laidOut hp, htake, Code.originAfter_append, Code.originAfter_cons]
  exact Code.originAfter_eq_self
    (fun origin hmem => org_notMem_loaded horigin origin (List.mem_of_mem_take hmem)) _

theorem address_of_label? (horigin : ∀ origin, Entry.org origin ∉ methodCode program ++ data)
    {place : LabelAddress} (hplace : image.label? name = some place) :
    place.address = config.loadAddress.toNat + place.offset := by
  obtain ⟨k, p, hk, hp, rfl⟩ := h.exists_of_label? hplace
  have hle : (header config ++ [Entry.org config.loadAddress]).length ≤ k := by
    rw [compose_eq_loaded, List.append_cons] at hk
    refine length_le_of_findIdx? (fun e he => ?_) hk
    rcases List.mem_append.1 he with he | he
    · exact defines_header he
    · rw [List.mem_singleton.1 he]
      rfl
  have horg := origin_of_compose h horigin hle hp
  show p.origin.toNat + p.offset = config.loadAddress.toNat + p.offset
  rw [horg]

theorem label?_entryLabel :
    ∃ place, image.label? entryLabel = some place ∧ place.offset = 32 := by
  obtain ⟨p, hp, hlabel⟩ := h.label?_of_findIdx? findIdx?_entryLabel
  exact ⟨_, hlabel, offset_entry h (.inl rfl) hp⟩

theorem label?_dataEndLabel :
    ∃ place, image.label? dataEndLabel = some place ∧ place.offset = image.size := by
  obtain ⟨hmarker, q, hq, hsize⟩ := h.size_eq rfl
  obtain ⟨p, hp, hlabel⟩ := h.label?_of_findIdx? hmarker
  rw [hq] at hp
  cases hp
  exact ⟨_, hlabel, hsize.symm⟩

theorem place_of_tail {k : Nat} {e : Entry} (he : (tail config)[k]? = some e) :
    ∃ p, layout.places[(body program config data).length + k]? = some p ∧ p.entry = e := by
  refine Layout.place_of_getElem? h.laidOut ?_
  rw [compose_eq, List.getElem?_append_right (Nat.le_add_right _ _), Nat.add_sub_cancel_left, he]

/-- Nothing takes the name of the end of the data. -/
theorem length_chunks
    (hfresh : ∀ e ∈ contents program data, e.defines dataEndLabel = false) :
    chunks.length = (body program config data).length + 1 := by
  obtain ⟨hmarker, -⟩ := h.size_eq rfl
  rw [findIdx?_tail (.inl rfl) hfresh (k := 1) rfl] at hmarker
  exact (Option.some.inj hmarker).symm

/-- The image ends where the padding at the end of the data does. -/
theorem dvd_size
    (hfresh : ∀ e ∈ contents program data, e.defines dataEndLabel = false) :
    config.pageAlignment.toNat ∣ image.size := by
  obtain ⟨p, hp, hentry⟩ := place_of_tail h (k := 0) rfl
  obtain ⟨-, q, hq, hsize⟩ := h.size_eq rfl
  rw [length_chunks h hfresh] at hq
  have hlaid := Layout.size_of_mem h.laidOut (List.mem_of_getElem? hp)
  rw [hentry] at hlaid
  simp only [Cursor.size] at hlaid
  split at hlaid
  case isTrue => cases hlaid
  case isFalse hne =>
    have hpos : 0 < config.pageAlignment.toNat := by
      rw [Nat.pos_iff_ne_zero]
      exact fun hzero => hne (UInt32.toNat.inj hzero)
    rw [hsize, Layout.offset_succ h.laidOut hp hq, Place.stop, ← Except.ok.inj hlaid]
    exact Cursor.dvd_add_padding _ hpos

/-- The stack is the space between the end of the image and the label for its top. -/
theorem label?_stackTopLabel
    (hfresh : ∀ name, name = dataEndLabel ∨ name = stackTopLabel →
      ∀ e ∈ contents program data, e.defines name = false) :
    ∃ place, image.label? stackTopLabel = some place ∧
      place.offset = image.size + config.stackSize.toNat := by
  obtain ⟨p, hp, hlabel⟩ := h.label?_of_findIdx?
    (findIdx?_tail (.inr rfl) (hfresh _ (.inr rfl)) (k := 3) rfl)
  -- The label for the top stands behind the space of the stack, and that behind the marker.
  obtain ⟨q, hq, hentry⟩ := place_of_tail h (k := 2) rfl
  obtain ⟨m, hm, hmarker⟩ := place_of_tail h (k := 1) rfl
  obtain ⟨-, m', hm', hsize⟩ := h.size_eq rfl
  rw [length_chunks h (hfresh _ (.inl rfl)), hm] at hm'
  cases hm'
  have hmsize : m.size = 0 := h.size_of_entry hm (by rw [hmarker]; rfl)
  have hqsize : q.size = config.stackSize.toNat := h.size_of_entry hq (by rw [hentry]; rfl)
  have hqoffset := Layout.offset_succ h.laidOut hm hq
  have hpoffset := Layout.offset_succ h.laidOut hq hp
  simp only [Place.stop] at hqoffset hpoffset
  refine ⟨_, hlabel, ?_⟩
  show p.offset = image.size + config.stackSize.toNat
  omega

/-- The first instruction loads the address of the top of the stack. -/
theorem encode_entry {top : LabelAddress} (htop : image.label? stackTopLabel = some top) :
    Instruction.encode ⟨.mov, [.register .esp, .immediate top.address]⟩ {} =
      .ok ((image.bytes.drop 32).take 5) := by
  have hle := eleven_le_length h
  obtain ⟨p, chunk, hp, hchunk⟩ := h.exists_chunk (k := 10) (by omega)
  have hentry : p.entry = Entry.mov (.register .esp) (.label stackTopLabel) :=
    Option.some.inj (Layout.entry_of_getElem? h.laidOut hp).symm
  have hmode : p.mode = .bits32 := Layout.mode_eq h.laidOut hp
  have hsize : p.size = 5 := h.size_of_entry hp (by rw [hentry, Place.cursor, hmode]; rfl)
  have hslice := (h.slice hp hchunk).2
  rw [offset_entry h (.inr rfl) hp, hsize] at hslice
  obtain ⟨r, hr, hbytes⟩ := h.resolve_of_chunk hp hchunk
  have href : p.entry.reference? = some ⟨stackTopLabel, .absolute⟩ := by
    rw [hentry]
    rfl
  obtain ⟨target, hdefinition, htarget⟩ := Place.resolve_target h.indexed h.laidOut hr href
  have haddress : target.address = top.address := by
    rw [h.label?_eq, hdefinition] at htop
    cases htop
    rfl
  rw [hslice, ← hbytes, Place.chunk, hentry, Place.context, hmode, htarget, ← haddress]
  rfl

end Images

/-! ## Sessions -/

/-- The stream that a session is built from: its code, and the composition behind it. -/
def stream (s : Session) (program : Program) (config : Config) : Code :=
  s.code ++ compose program config s.data

theorem linked_stream_of_build {s : Session} {image : Image}
    (h : s.build program config = .ok image) :
    ∃ index layout chunks,
      Linked (stream s program config) (some dataEndLabel) image index layout chunks := by
  obtain ⟨composed, hcomposed, hlink⟩ := bind_eq_ok.1 h
  have hstream : composed.code = stream s program config := by
    unfold Session.compose at hcomposed
    split at hcomposed
    · split at hcomposed <;> cases hcomposed
      rfl
    · cases hcomposed
      rfl
  rw [hstream] at hlink
  exact linked_of_link hlink

theorem linked_of_build {s : Session} {image : Image} (hcode : s.code = [])
    (h : s.build program config = .ok image) :
    ∃ index layout chunks,
      Linked (compose program config s.data) (some dataEndLabel) image index layout chunks := by
  have hlinked := linked_stream_of_build h
  rwa [stream, hcode, List.nil_append] at hlinked

/-- **A built image is a multiboot image.** It starts with the header, whose first three values add
up to zero and whose addresses are those of the image, of the end of its data, of the top of its
stack and of the entry stub behind it. The data ends at a multiple of the page size, every label is
at its offset from the load address, the first instruction loads the stack pointer with the top
of the stack, and the stack takes the space behind the image, of which nothing is written. -/
theorem build_multiboot {s : Session} {image : Image} (hcode : s.code = [])
    (hown : Composable program s.data) (hbuild : s.build program config = .ok image) :
    image.bytes.take 32 =
      [ magic.toNat, config.flags.toNat, (checksum magic config.flags).toNat,
        config.loadAddress.toNat, config.loadAddress.toNat,
        config.loadAddress.toNat + image.size,
        config.loadAddress.toNat + image.size + config.stackSize.toNat,
        config.loadAddress.toNat + 32 ].flatMap (LittleEndian.ofNat 4) ∧
    magic + config.flags + checksum magic config.flags = 0 ∧
    config.loadAddress.toNat + image.size + config.stackSize.toNat < 2 ^ 32 ∧
    config.pageAlignment.toNat ∣ image.size ∧
    (∀ name place, image.label? name = some place →
      place.address = config.loadAddress.toNat + place.offset) ∧
    Instruction.encode ⟨.mov, [.register .esp, .immediate
      ↑(config.loadAddress.toNat + image.size + config.stackSize.toNat)]⟩ {} =
        .ok ((image.bytes.drop 32).take 5) ∧
    image.label? dataEndLabel = some
      { offset := image.size, address := config.loadAddress.toNat + image.size } ∧
    image.label? stackTopLabel = some {
      offset := image.size + config.stackSize.toNat
      address := config.loadAddress.toNat + image.size + config.stackSize.toNat } := by
  obtain ⟨index, layout, chunks, h⟩ := linked_of_build hcode hbuild
  have haddress : ∀ name place, image.label? name = some place →
      place.address = config.loadAddress.toNat + place.offset :=
    fun _ _ => address_of_label? h hown.noOrigin
  have hfresh : ∀ name, name = dataEndLabel ∨ name = stackTopLabel →
      ∀ e ∈ contents program s.data, e.defines name = false :=
    fun name hname => hown.fresh name (by rcases hname with rfl | rfl <;> simp [imageLabels])
  obtain ⟨entry, hentry, hentryOffset⟩ := label?_entryLabel h
  obtain ⟨stop, hstop, hstopOffset⟩ := label?_dataEndLabel h
  obtain ⟨top, htop, htopOffset⟩ := label?_stackTopLabel h hfresh
  have hentryAddress := haddress _ _ hentry
  have hstopAddress := haddress _ _ hstop
  have htopAddress := haddress _ _ htop
  rw [hentryOffset] at hentryAddress
  rw [hstopOffset] at hstopAddress
  rw [htopOffset, ← Nat.add_assoc] at htopAddress
  -- The top of the stack is written in the header, so its address has 32 bits.
  have hfits : top.address < 2 ^ 32 := by
    have hle := eleven_le_length h
    obtain ⟨p, chunk, hp, hchunk⟩ := h.exists_chunk (k := 6) (by omega)
    have hvalue : p.entry = .data none (.address stackTopLabel) :=
      Option.some.inj (Layout.entry_of_getElem? h.laidOut hp).symm
    obtain ⟨target, htarget, hlt, -⟩ := h.chunk_of_address hp hchunk hvalue
    rw [htop] at htarget
    cases htarget
    exact hlt
  refine ⟨?_, magic_add_flags_add_checksum _ _, ?_, dvd_size h (hfresh _ (.inl rfl)), haddress, ?_,
    ?_, ?_⟩
  · rw [take_header h]
    simp [headerValues, DataValue.bytesIn, hentry, hstop, htop, hentryAddress, hstopAddress,
      htopAddress]
  · omega
  · have hmov := encode_entry h htop
    rwa [htopAddress] at hmov
  · rw [hstop, ← hstopOffset, ← haddress _ _ hstop]
  · rw [htop, ← htopOffset, ← htopAddress]

/-- A method that returns at once, with pages and a stack of 16 bytes. -/
theorem build_multiboot_return :
    ∃ image,
      Session.build {} ⟨[⟨"kernel_main", [Entry.ret]⟩], []⟩
        { pageAlignment := 16, stackSize := 16 } = .ok image ∧
      Composable ⟨[⟨"kernel_main", [Entry.ret]⟩], []⟩ [] ∧
      image.bytes.take 32 =
        [ 0x02, 0xB0, 0xAD, 0x1B, 0x03, 0x00, 0x01, 0x00,
          0xFB, 0x4F, 0x51, 0xE4, 0x00, 0x00, 0x10, 0x00,
          0x00, 0x00, 0x10, 0x00, 0xF0, 0x00, 0x10, 0x00,
          0x00, 0x01, 0x10, 0x00, 0x20, 0x00, 0x10, 0x00 ] ∧
      image.label? stackTopLabel = some { offset := 0x100, address := 0x100100 } := by
  have hbuilt : (Session.build {} ⟨[⟨"kernel_main", [Entry.ret]⟩], []⟩
      { pageAlignment := 16, stackSize := 16 }).toOption.any (·.size == 240) = true := by
    decide +kernel
  obtain ⟨image, hbuild, hsize⟩ := exists_ok_of_any hbuilt
  have hown : Composable ⟨[⟨"kernel_main", [Entry.ret]⟩], []⟩ [] := by
    constructor
    case noOrigin => simp [methodCode, Entry.ret, Entry.machine]
    case fresh => decide +kernel
  obtain ⟨hheader, -, -, -, -, -, -, htop⟩ := build_multiboot rfl hown hbuild
  rw [beq_iff_eq.1 hsize] at hheader htop
  exact ⟨image, hbuild, hown, hheader, htop⟩

end BootImage.Multiboot
