import BootImage.Proofs.Interning
import BootImage.Proofs.Isolation

/-!
# The data of a built image

Behind the shift routines an image has one slot for each static field, and then the data that was
deferred, with the texts among it. Jumps in front may shrink and move all of this, methods and
data may be anything, and nothing is written behind the end of the data. Still, if no two labels
are the same name, the slots stand one behind the other, every text is at its label, and all of
them are written and apart from each other.

* `Code.DistinctLabels`, `findIdx?_of_distinct` — streams where no two labels are the same name.
* `Linked.holds_of_data` — data behind a label is in the image, at the label.
* `dataItems`, `written_perm` — the slots and texts of an image, and where they come from.
* `build_dataArea` — where a built image has its static fields and texts.
-/

namespace BootImage

open Text

/-! ## Streams with distinct labels -/

/-- No two labels of the stream are the same name. -/
def Code.DistinctLabels (code : Code) : Prop :=
  (code.filterMap Entry.label?).Pairwise (sameName · · = false)

instance (code : Code) : Decidable code.DistinctLabels :=
  inferInstanceAs (Decidable (List.Pairwise _ _))

/-- In such a stream, a name means the entry that has it. -/
theorem findIdx?_of_distinct {code : Code} {k : Nat} {e : Entry} {name : String}
    (h : code.DistinctLabels) (hk : code[k]? = some e) (he : e.label? = some name) :
    code.findIdx? (·.defines name) = some k := by
  obtain ⟨hlt, rfl⟩ := List.getElem?_eq_some_iff.1 hk
  rw [List.findIdx?_eq_some_iff_getElem]
  refine ⟨hlt, by simp [Entry.defines, he, sameName], fun j hj => ?_⟩
  -- An earlier definition of the name would be a second label of that name.
  have hpair := List.pairwise_iff_getElem.1 (List.pairwise_filterMap.1 h) j k (hj.trans hlt) hlt hj
  cases hlabel : code[j].label? with
  | none => simp [Entry.defines, hlabel]
  | some other => simp [Entry.defines, hlabel, hpair other hlabel name he]

theorem DataValue.length_bytesIn (image : Image) (v : DataValue) :
    (v.bytesIn image).length = v.length := by
  cases v <;> simp [DataValue.bytesIn, DataValue.length]

theorem Entry.length_zeroTerminated (text : String) :
    (zeroTerminated text).length = text.toUTF8.size + 1 := by
  rw [zeroTerminated, List.length_append, Array.length_toList]
  rfl

/-- The value stands at the place, which is that of the entry at position `k` and of its label. -/
structure Place.Holds (p : Place) (image : Image) (k : Nat) (name : String) (v : DataValue) :
    Prop where
  line_eq : image.lines[k]? = some (p.line true)
  label_eq : image.label? name = some p.labelAddress
  size_eq : p.size = v.length
  bytes_eq : (image.bytes.drop p.offset).take v.length = v.bytesIn image
  stop_le : p.stop ≤ image.size

namespace Linked

variable {code : Code} {marker : Option String} {image : Image} {index : LabelIndex}
  {layout : Layout} {chunks : List (List UInt8)} {name : String} {k : Nat} {p : Place}
  {v : DataValue}

variable (h : Linked code marker image index layout chunks)
include h

theorem stop_le_size (hp : layout.places[k]? = some p) (hk : k < chunks.length) :
    p.stop ≤ image.size := by
  have hsize : image.size = extent (layout.places.take chunks.length) := by
    rw [Image.size, h.bytes_eq, length_flatten_of_writes h.writes]
  rw [hsize, Layout.stop_eq_extent h.laidOut hp]
  exact extent_take_mono hk _

theorem holds_of_data (hdistinct : code.DistinctLabels)
    (hcode : code[k]? = some (Entry.named name v)) (hk : k < chunks.length) :
    ∃ p, layout.places[k]? = some p ∧ p.Holds image k name v := by
  obtain ⟨p, chunk, hp, hchunk⟩ := h.exists_chunk hk
  have hentry : p.entry = Entry.named name v :=
    Option.some.inj ((Layout.entry_of_getElem? h.laidOut hp).symm.trans hcode)
  -- Names are distinct, so the label stands for this very entry.
  obtain ⟨q, hq, hlabel⟩ := h.label?_of_findIdx? (findIdx?_of_distinct hdistinct hcode rfl)
  rw [hp] at hq
  cases hq
  obtain ⟨hwrites, hslice⟩ := h.slice hp hchunk
  have hsize : p.size = v.length := by
    rw [← hwrites.length, h.chunk_of_data hp hchunk hentry, DataValue.length_bytesIn]
  rw [hsize, h.chunk_of_data hp hchunk hentry] at hslice
  have hline := h.line_of_place hp
  rw [decide_eq_true hk] at hline
  exact ⟨p, hp, {
    line_eq := hline
    label_eq := hlabel
    size_eq := hsize
    bytes_eq := hslice
    stop_le := h.stop_le_size hp hk }⟩

end Linked

namespace Multiboot

/-! ## Slots and texts -/

theorem StaticField.length_zero (field : StaticField) : field.zero.length = field.type.size := by
  obtain ⟨name, type⟩ := field
  cases type <;> rfl

theorem StaticField.bytesIn_zero (field : StaticField) (image : Image) :
    field.zero.bytesIn image = List.replicate field.type.size 0 := by
  obtain ⟨name, type⟩ := field
  cases type <;> rfl

/-- The slots of the static fields and the texts that were interned: their labels and values. -/
def dataItems (history : History) (program : Program) : List (String × DataValue) :=
  program.statics.map (fun field => (field.name, field.zero)) ++
    history.interned.map (fun (text, label) => (label, .bytes (Entry.zeroTerminated text)))

/-- Everything in front of the static fields. -/
def beforeStatics (s : Session) (program : Program) (config : Config) : Code :=
  s.code ++ beforeRoutines program config ++ shiftRoutines

/-- The stream of an image up to the end of its data. -/
def written (s : Session) (program : Program) (config : Config) : Code :=
  beforeStatics s program config ++ staticData program ++ s.data

variable {history : History} {s : Session} {program : Program} {config : Config} {image : Image}

theorem stream_eq (s : Session) (program : Program) (config : Config) :
    stream s program config = written s program config ++ tail config := by
  simp [stream, written, beforeStatics, beforeRoutines, compose]

theorem map_named_dataItems (history : History) (program : Program) :
    (dataItems history program).map (fun (label, value) => Entry.named label value) =
      staticData program ++
        history.interned.map (fun (text, label) => Entry.string label text) := by
  rw [dataItems, List.map_append, List.map_map, List.map_map]
  rfl

/-- What is written consists of the slots and texts and of what comes with other calls. -/
theorem written_perm (run : Run history s) (program : Program) (config : Config) :
    (written s program config).Perm
      ((dataItems history program).map (fun (label, value) => Entry.named label value) ++
        (history.added ++ beforeRoutines program config ++ shiftRoutines)) := by
  rw [map_named_dataItems, List.perm_iff_count]
  intro e
  have hcount := List.perm_iff_count.1 run.entries_perm e
  simp only [written, beforeStatics, List.count_append] at hcount ⊢
  omega

theorem pairwise_dataItems (run : Run history s)
    (hdistinct : (stream s program config).DistinctLabels) :
    (dataItems history program).Pairwise (fun a b => sameName a.1 b.1 = false) := by
  rw [stream_eq, Code.DistinctLabels, List.filterMap_append] at hdistinct
  have hwritten := (List.pairwise_append.1 hdistinct).1
  have hperm := (written_perm run program config).filterMap Entry.label?
  rw [hperm.pairwise_iff (fun h => (sameName_comm ..).trans h), List.filterMap_append] at hwritten
  have hitems := (List.pairwise_append.1 hwritten).1
  rw [List.pairwise_filterMap, List.pairwise_map] at hitems
  exact hitems.imp fun hnames => hnames _ rfl _ rfl

section Images

variable {index : LabelIndex} {layout : Layout} {chunks : List (List UInt8)} {start p : Place}
  {j : Nat} {field : StaticField}

variable (h : Linked (stream s program config) (some dataEndLabel) image index layout chunks)
include h

/-- The first entry of the deferred data is directly behind the static fields. -/
theorem entry_deferred {e : Entry} (he : s.data.head? = some e)
    (hp : layout.places[(beforeStatics s program config).length + program.statics.length]? =
      some p) : p.entry = e := by
  have hlength : (beforeStatics s program config ++ staticData program).length =
      (beforeStatics s program config).length + program.statics.length := by
    simp [staticData]
  have hentry := Layout.entry_of_getElem? h.laidOut hp
  rw [stream_eq, written, List.append_assoc, ← hlength, List.getElem?_append_right le_rfl,
    Nat.sub_self, ← List.head?_eq_getElem?, List.head?_append, he] at hentry
  exact (Option.some.inj hentry).symm

variable (hdistinct : (stream s program config).DistinctLabels)
include hdistinct

theorem length_chunks_of_distinct : chunks.length = (written s program config).length + 1 := by
  obtain ⟨hmarker, -⟩ := h.size_eq rfl
  have htail : (stream s program config)[(written s program config).length + 1]? =
      some (.label dataEndLabel) := by
    rw [stream_eq, List.getElem?_append_right (Nat.le_add_right ..), Nat.add_sub_cancel_left]
    rfl
  rw [findIdx?_of_distinct hdistinct htail rfl] at hmarker
  exact (Option.some.inj hmarker).symm

theorem holds_of_mem (run : Run history s) {item : String × DataValue}
    (hitem : item ∈ dataItems history program) :
    ∃ (k : Nat) (p : Place),
      (stream s program config)[k]? = some (Entry.named item.1 item.2) ∧
      layout.places[k]? = some p ∧ p.Holds image k item.1 item.2 := by
  have hmem : Entry.named item.1 item.2 ∈ written s program config :=
    (written_perm run program config).symm.subset
      (List.mem_append_left _ (List.mem_map_of_mem hitem))
  obtain ⟨k, hk⟩ := List.mem_iff_getElem?.1 hmem
  have hlt : k < (written s program config).length := (List.getElem?_eq_some_iff.1 hk).1
  have hcode : (stream s program config)[k]? = some (Entry.named item.1 item.2) := by
    rw [stream_eq, List.getElem?_append_left hlt, hk]
  have hchunks := length_chunks_of_distinct h hdistinct
  obtain ⟨p, hp, hholds⟩ := h.holds_of_data hdistinct hcode (by omega)
  exact ⟨k, p, hcode, hp, hholds⟩

theorem disjoint_dataItems (run : Run history s) :
    (dataItems history program).Pairwise fun a b => ∀ p q,
      image.label? a.1 = some p → image.label? b.1 = some q →
        p.offset + a.2.length ≤ q.offset ∨ q.offset + b.2.length ≤ p.offset := by
  refine (pairwise_dataItems run hdistinct).imp_of_mem fun {a b} ha hb hnames p q hp hq => ?_
  obtain ⟨i, pa, hcode, hpa, holds⟩ := holds_of_mem h hdistinct run ha
  obtain ⟨j, pb, hcode', hpb, holds'⟩ := holds_of_mem h hdistinct run hb
  rw [holds.label_eq] at hp
  rw [holds'.label_eq] at hq
  cases hp
  cases hq
  rw [← holds.size_eq, ← holds'.size_eq]
  rcases Nat.lt_trichotomy i j with hlt | rfl | hlt
  · exact .inl (Layout.stop_le_offset h.laidOut hpa hpb hlt)
  · -- At one position there is one entry, and it has one label.
    have hlabels : a.1 = b.1 :=
      Option.some.inj (congrArg Entry.label? (Option.some.inj (hcode.symm.trans hcode')))
    simp [hlabels, sameName] at hnames
  · exact .inr (Layout.stop_le_offset h.laidOut hpb hpa hlt)

/-- The shift routines end with an instruction of one byte, and the static fields follow. -/
theorem exists_ret_line : ∃ line,
    image.lines[(beforeStatics s program config).length - 1]? = some line ∧
      line.text = Entry.ret.text ∧ image.slice line = [0xC3] ∧
      ∀ p, layout.places[(beforeStatics s program config).length]? = some p →
        line.offset + line.length = p.offset := by
  obtain ⟨front, hfront⟩ : ∃ front, beforeStatics s program config = front ++ [Entry.ret] := by
    have hlast : shiftRoutines.dropLast ++ [Entry.ret] = shiftRoutines :=
      List.dropLast_append_getLast? _ rfl
    exact ⟨s.code ++ beforeRoutines program config ++ shiftRoutines.dropLast, by
      rw [List.append_assoc, hlast, beforeStatics]⟩
  have hlength : (beforeStatics s program config).length = front.length + 1 := by
    rw [hfront, List.length_append, List.length_singleton]
  have hchunks := length_chunks_of_distinct h hdistinct
  have hcode : (stream s program config)[front.length]? = some Entry.ret := by
    rw [stream_eq, written, hfront]
    simp
  have hlt : front.length < chunks.length := by
    rw [hchunks, written]
    simp only [List.length_append]
    omega
  obtain ⟨q, chunk, hq, hchunk⟩ := h.exists_chunk hlt
  have hentry : q.entry = Entry.ret :=
    Option.some.inj ((Layout.entry_of_getElem? h.laidOut hq).symm.trans hcode)
  obtain ⟨r, -, hbytes⟩ := h.resolve_of_chunk hq hchunk
  rw [Place.chunk, hentry] at hbytes
  -- The instruction has the same byte in every mode, so it does not matter what the methods leave.
  cases hbytes
  have hline := h.line_of_place hq
  rw [decide_eq_true hlt] at hline
  rw [hlength, Nat.add_sub_cancel]
  exact ⟨_, hline, congrArg Entry.text hentry, h.slice_line hq hchunk,
    fun p hp => (Layout.offset_succ h.laidOut hq hp).symm⟩

theorem holds_of_slot (hfield : program.statics[j]? = some field) :
    ∃ p, layout.places[(beforeStatics s program config).length + j]? = some p ∧
      p.Holds image ((beforeStatics s program config).length + j) field.name field.zero := by
  have hj : j < program.statics.length := (List.getElem?_eq_some_iff.1 hfield).1
  refine h.holds_of_data hdistinct ?_ ?_
  · rw [stream_eq, written, List.append_assoc, List.append_assoc,
      List.getElem?_append_right (Nat.le_add_right ..), Nat.add_sub_cancel_left,
      List.getElem?_append_left (by rwa [staticData, List.length_map]), staticData,
      List.getElem?_map, hfield]
    rfl
  · rw [length_chunks_of_distinct h hdistinct, written]
    simp only [staticData, List.length_append, List.length_map]
    omega

theorem offset_slot
    (hstart : layout.places[(beforeStatics s program config).length]? = some start)
    (hj : j ≤ program.statics.length)
    (hp : layout.places[(beforeStatics s program config).length + j]? = some p) :
    p.offset = start.offset + ((program.statics.take j).map fun field => field.type.size).sum := by
  induction j generalizing p with
  | zero =>
    cases hstart.symm.trans hp
    simp
  | succ j ih =>
    have hfield : program.statics[j]? = some program.statics[j] := List.getElem?_eq_getElem hj
    obtain ⟨q, hq, holds⟩ := holds_of_slot h hdistinct hfield
    rw [Layout.offset_succ h.laidOut hq hp, Place.stop, ih (Nat.le_of_succ_le hj) hq,
      holds.size_eq, StaticField.length_zero, List.take_add_one, hfield, Option.toList_some,
      List.map_append, List.sum_append, Nat.add_assoc]
    rfl

end Images

/-! ## Built images -/

/-- Where an image has its static fields and the texts that were interned, if its data starts at
the offset `start`. -/
structure DataArea (history : History) (s : Session) (program : Program) (config : Config)
    (image : Image) (start : Nat) : Prop where
  /-- The data starts directly behind the last instruction of the shift routines. -/
  ret : ∃ line, image.lines[(beforeStatics s program config).length - 1]? = some line ∧
    line.text = Entry.ret.text ∧ image.slice line = [0xC3] ∧ line.offset + line.length = start
  /-- Each slot is directly behind those in front of it, has the size of its type, and is filled
  with zeros. -/
  slot : ∀ (j : Nat) field, program.statics[j]? = some field → ∃ line place,
    image.lines[(beforeStatics s program config).length + j]? = some line ∧
    image.label? field.name = some place ∧ place.offset = line.offset ∧
    line.offset = start + ((program.statics.take j).map fun field => field.type.size).sum ∧
    line.length = field.type.size ∧ image.slice line = List.replicate field.type.size 0
  /-- The deferred data is directly behind the last slot. -/
  deferred : ∃ line,
    image.lines[(beforeStatics s program config).length + program.statics.length]? = some line ∧
    (∀ e, s.data.head? = some e → line.text = e.text) ∧
    line.offset = start + (program.statics.map fun field => field.type.size).sum
  /-- Each text is at its label. -/
  text : ∀ text label, ⟨.intern text, .ok (.label label)⟩ ∈ history →
    ∃ place, image.label? label = some place ∧
      (image.bytes.drop place.offset).take (text.toUTF8.size + 1) =
        text.toUTF8.data.toList ++ [0]
  /-- All slots and texts are written. -/
  inside : ∀ item ∈ dataItems history program, ∃ place, image.label? item.1 = some place ∧
    place.offset + item.2.length ≤ image.size
  /-- No two of them overlap. -/
  disjoint : (dataItems history program).Pairwise fun a b => ∀ p q,
    image.label? a.1 = some p → image.label? b.1 = some q →
      p.offset + a.2.length ≤ q.offset ∨ q.offset + b.2.length ≤ p.offset

/-- **If no two labels are the same name, a built image has all its data in place.** -/
theorem build_dataArea (run : Run history s)
    (hdistinct : (stream s program config).DistinctLabels)
    (hbuild : s.build program config = .ok image) :
    ∃ start, DataArea history s program config image start := by
  obtain ⟨index, layout, chunks, h⟩ := linked_stream_of_build hbuild
  have hplace (k : Nat) (hk : k < (written s program config ++ tail config).length) :
      ∃ p, layout.places[k]? = some p := by
    rw [← stream_eq, ← Layout.places_length h.laidOut] at hk
    exact ⟨_, List.getElem?_eq_getElem hk⟩
  -- The static fields start at the place of whatever stands behind the shift routines.
  obtain ⟨start, hstart⟩ := hplace (beforeStatics s program config).length (by
    simp [written, tail])
  obtain ⟨d, hd⟩ := hplace ((beforeStatics s program config).length + program.statics.length) (by
    simp [written, staticData, tail])
  refine ⟨start.offset, {
    ret := ?ret
    slot := fun j field hfield => ?slot
    deferred := ?deferred
    text := fun text label hmem => ?text
    inside := fun item hitem => ?inside
    disjoint := disjoint_dataItems h hdistinct run }⟩
  case ret =>
    obtain ⟨line, hline, htext, hslice, hstop⟩ := exists_ret_line h hdistinct
    exact ⟨line, hline, htext, hslice, hstop start hstart⟩
  case slot =>
    have hj : j < program.statics.length := (List.getElem?_eq_some_iff.1 hfield).1
    obtain ⟨p, hp, holds⟩ := holds_of_slot h hdistinct hfield
    have hsize := holds.size_eq
    have hbytes := holds.bytes_eq
    rw [← hsize, StaticField.bytesIn_zero] at hbytes
    rw [StaticField.length_zero] at hsize
    exact ⟨_, _, holds.line_eq, holds.label_eq, rfl, offset_slot h hdistinct hstart hj.le hp,
      hsize, hbytes⟩
  case deferred =>
    have hoffset := offset_slot h hdistinct hstart le_rfl hd
    rw [List.take_length] at hoffset
    exact ⟨_, h.line_of_place hd, fun e he => congrArg Entry.text (entry_deferred h he hd), hoffset⟩
  case text =>
    have hitem : (label, .bytes (Entry.zeroTerminated text)) ∈ dataItems history program :=
      List.mem_append_right _ (List.mem_map_of_mem (run.mem_interned_iff.2 hmem))
    obtain ⟨_, p, -, -, holds⟩ := holds_of_mem h hdistinct run hitem
    refine ⟨_, holds.label_eq, ?_⟩
    rw [← Entry.length_zeroTerminated]
    exact holds.bytes_eq
  case inside =>
    obtain ⟨_, p, -, -, holds⟩ := holds_of_mem h hdistinct run hitem
    refine ⟨_, holds.label_eq, ?_⟩
    rw [← holds.size_eq]
    exact holds.stop_le

/-- A method that returns at once, a flag and a counter. -/
def counting : Program where
  methods := [⟨"kernel_main", [Entry.ret]⟩]
  statics := [⟨"ready", .u1⟩, ⟨"total", .i8⟩]

/-- An image with both, and with a text at a multiple of four. -/
theorem build_dataArea_counting :
    ∃ (history : History) (s : Session) (image : Image) (start : Nat),
      history.map Event.call = [.intern "hi", .appendData [.align 4]] ∧
      s.build counting smallPages = .ok image ∧
      DataArea history s counting smallPages image start := by
  have aligned := Run.start.succeed (c := .appendData [.align 4]) nofun rfl
  have interned := aligned.succeed (c := .intern "hi") nofun rfl
  obtain ⟨history, s, run, hcalls, hdistinct, hbuilt⟩ : ∃ (history : History) (s : Session),
      Run history s ∧ history.map Event.call = [.intern "hi", .appendData [.align 4]] ∧
      (stream s counting smallPages).DistinctLabels ∧
      (s.build counting smallPages).toOption.any (fun _ => true) = true :=
    ⟨_, _, interned, rfl, by decide +kernel, by decide +kernel⟩
  obtain ⟨image, hbuild, -⟩ := exists_ok_of_any hbuilt
  obtain ⟨start, harea⟩ := build_dataArea run hdistinct hbuild
  exact ⟨history, s, image, start, hcalls, hbuild, harea⟩

end Multiboot

end BootImage
