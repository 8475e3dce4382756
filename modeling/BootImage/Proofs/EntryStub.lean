import BootImage.Proofs.Isolation

/-!
# What the entry stub calls

Behind the header stand the load of the stack pointer, the calls, and the endless loop. Each of
these instructions has five bytes, so the place of the loop tells how many calls there are. Whether
the static constructor is called depends on whether a method has exactly its name, but the call
itself, as every reference to a label, finds its target up to letter case.

* `entryStub_eq` — the entry stub around the names that it calls.
* `offset_call`, `StubCalls` — where the calls of an image are, and where they go.
* `StubCalls.length_eq` — an image has one number of calls.
* `static_constructor_called_iff` — exactly then an image calls the static constructor.
* `static_constructor_skipped` — a constructor spelled in other letter case is not called.
-/

namespace BootImage.Multiboot

variable {program : Program} {config : Config} {data : Code} {image : Image} {name : String}
  {k : Nat}

/-! ## The calls in the stream -/

/-- The names that the entry stub calls, in order. -/
def calledNames (program : Program) (config : Config) : List String :=
  (config.staticConstructor.filter program.hasMethod).toList ++ [config.entry]

theorem hasMethod_iff : program.hasMethod name = true ↔ ∃ m ∈ program.methods, m.name = name := by
  simp [Program.hasMethod]

/-- The entry stub up to its calls. -/
def stubStart (config : Config) : Code :=
  [.org config.loadAddress, .label entryLabel,
    Entry.mov (.register .esp) (.label stackTopLabel)]

theorem entryStub_eq : entryStub config program =
    stubStart config ++ (calledNames program config).map (fun name => Entry.call (.label name)) ++
      [.label haltLabel, Entry.jmp (.label haltLabel)] := by
  have hcall : constructorCall config program =
      (config.staticConstructor.filter program.hasMethod).toList.map
        (fun name => Entry.call (.label name)) := by
    unfold constructorCall
    split
    · rename_i method hmethod
      by_cases hhas : program.hasMethod method = true <;> simp [hmethod, Option.filter, hhas]
    · rename_i hnone
      simp [hnone]
  simp [entryStub, stubStart, calledNames, hcall]

/-- The composition around the calls: eleven entries stand in front of them. -/
theorem compose_eq_calls (program : Program) (config : Config) (data : Code) :
    ∃ rest, compose program config data =
      (header config ++ stubStart config) ++
        ((calledNames program config).map (fun name => Entry.call (.label name)) ++
          .label haltLabel :: Entry.jmp (.label haltLabel) :: rest) :=
  ⟨methodCode program ++ shiftRoutines ++ staticData program ++ data ++ tail config, by
    simp [compose, entryStub_eq]⟩

theorem length_entryStub :
    (header config ++ entryStub config program).length =
      11 + (calledNames program config).length + 2 := by
  simp only [entryStub_eq, header, stubStart, List.length_append, List.length_map,
    List.length_cons, List.length_nil]
  omega

theorem getElem?_call (hname : (calledNames program config)[k]? = some name) :
    (compose program config data)[11 + k]? = some (Entry.call (.label name)) := by
  have hlt : k < (calledNames program config).length := (List.getElem?_eq_some_iff.1 hname).1
  have hlength : (header config ++ stubStart config).length = 11 := rfl
  obtain ⟨rest, hsplit⟩ := compose_eq_calls program config data
  rw [hsplit, List.getElem?_append_right (by omega), hlength, Nat.add_sub_cancel_left,
    List.getElem?_append_left (by simpa using hlt), List.getElem?_map, hname, Option.map_some]

theorem findIdx?_halt : (compose program config data).findIdx? (·.defines haltLabel) =
    some (11 + (calledNames program config).length) := by
  have hlength : (header config ++ stubStart config).length = 11 := rfl
  obtain ⟨rest, hsplit⟩ := compose_eq_calls program config data
  have hstart : ∀ e ∈ header config ++ stubStart config, e.defines haltLabel = false := by
    intro e he
    rcases List.mem_append.1 he with he | he
    · exact defines_header he
    · simp only [stubStart, List.mem_cons, List.not_mem_nil, or_false] at he
      rcases he with rfl | rfl | rfl <;> rfl
  have hcalls : ∀ e ∈ (calledNames program config).map (fun name => Entry.call (.label name)),
      e.defines haltLabel = false := by
    intro e he
    obtain ⟨name, -, rfl⟩ := List.mem_map.1 he
    rfl
  rw [hsplit, findIdx?_append_of_fresh hstart (findIdx?_append_of_fresh (k := 0) hcalls rfl),
    hlength, List.length_map, Nat.add_zero]

/-! ## The calls in an image -/

/-- The calls of an entry stub: one for each of `names`, in this order, and then the endless loop.
The first one is behind the header and the load of the stack pointer, each has five bytes, and its
field holds the distance from its end to the label of that name. -/
structure StubCalls (image : Image) (names : List String) : Prop where
  call : ∀ k name, names[k]? = some name → ∃ place field, image.label? name = some place ∧
    (image.bytes.drop (37 + 5 * k)).take 5 = 0xE8 :: field ∧ field.length = 4 ∧
    LittleEndian.toInt field + (37 + 5 * (k + 1) : Nat) = place.offset
  halt : ∃ place, image.label? haltLabel = some place ∧ place.offset = 37 + 5 * names.length

/-- The endless loop of an image is at one place, so its stub has one number of calls. -/
theorem StubCalls.length_eq {names names' : List String} (h : StubCalls image names)
    (h' : StubCalls image names') : names.length = names'.length := by
  obtain ⟨place, hplace, hoffset⟩ := h.halt
  obtain ⟨place', hplace', hoffset'⟩ := h'.halt
  rw [hplace] at hplace'
  cases hplace'
  omega

section Images

variable {index : LabelIndex} {layout : Layout} {chunks : List (List UInt8)} {p : Place}

variable (h : Linked (compose program config data) (some dataEndLabel) image index layout chunks)
include h

theorem mode_entryStub (hk : k < (header config ++ entryStub config program).length)
    (hp : layout.places[k]? = some p) : p.mode = .bits32 := by
  have hsplit : compose program config data = (header config ++ entryStub config program) ++
      (methodCode program ++ shiftRoutines ++ staticData program ++ data ++ tail config) := by
    simp [compose]
  rw [Layout.mode_eq h.laidOut hp, hsplit, List.take_append_of_le_length hk]
  exact Code.modeAfter_eq_self
    (fun mode hmem => bits_notMem_header_entryStub mode (List.mem_of_mem_take hmem)) _

theorem place_of_call (hname : (calledNames program config)[k]? = some name)
    (hp : layout.places[11 + k]? = some p) :
    p.entry = .instruction ⟨.call, [.label name]⟩ ∧ p.mode = .bits32 ∧ p.size = 5 := by
  have hlt : k < (calledNames program config).length := (List.getElem?_eq_some_iff.1 hname).1
  have hentry : p.entry = .instruction ⟨.call, [.label name]⟩ :=
    Option.some.inj ((Layout.entry_of_getElem? h.laidOut hp).symm.trans (getElem?_call hname))
  have hmode : p.mode = .bits32 := mode_entryStub h (by rw [length_entryStub]; omega) hp
  refine ⟨hentry, hmode, h.size_of_entry hp ?_⟩
  rw [hentry, Place.cursor, hmode]
  cases p.form <;> exact Instruction.length_branch (i := ⟨.call, [.label name]⟩) rfl .bits32 _

theorem offset_call (hk : k ≤ (calledNames program config).length)
    (hp : layout.places[11 + k]? = some p) : p.offset = 37 + 5 * k := by
  induction k generalizing p with
  | zero =>
    obtain ⟨q, hq, hentry⟩ := Layout.place_of_getElem? h.laidOut (i := 10)
      (e := Entry.mov (.register .esp) (.label stackTopLabel)) rfl
    have hmode : q.mode = .bits32 := mode_entryStub h (by rw [length_entryStub]; omega) hq
    have hsize : q.size = 5 := h.size_of_entry hq (by rw [hentry, Place.cursor, hmode]; rfl)
    rw [Layout.offset_succ h.laidOut hq hp, Place.stop, offset_entry h (.inr rfl) hq, hsize]
  | succ k ih =>
    have hname : (calledNames program config)[k]? = some (calledNames program config)[k] :=
      List.getElem?_eq_getElem hk
    obtain ⟨q, hq, -⟩ := Layout.place_of_getElem? h.laidOut (getElem?_call hname)
    rw [Layout.offset_succ h.laidOut hq hp, Place.stop, ih (by omega) hq,
      (place_of_call h hname hq).2.2]
    omega

theorem stubCalls_of_linked : StubCalls image (calledNames program config) := by
  constructor
  case call =>
    intro k name hname
    have hlt : k < (calledNames program config).length := (List.getElem?_eq_some_iff.1 hname).1
    have hle := length_header_entryStub_le h
    rw [length_entryStub] at hle
    obtain ⟨p, chunk, hp, hchunk⟩ := h.exists_chunk (k := 11 + k) (by omega)
    obtain ⟨hentry, hmode, hsize⟩ := place_of_call h hname hp
    have hoffset := offset_call h hlt.le hp
    obtain ⟨hwrites, hslice⟩ := h.slice hp hchunk
    obtain ⟨place, field, hplace, hbytes, hlength, hdistance⟩ := hwrites.branch _ name hentry rfl
    rw [hoffset, hsize] at hslice
    rw [Place.stop, hoffset, hsize] at hdistance
    rw [hmode] at hlength
    -- A call has no short form, whatever the form of its place.
    have hopcode : (Mnemonic.call.branchOpcode p.form).bytes = [0xE8] := by cases p.form <;> rfl
    have hfield : field.length = 4 := by rw [hlength]; cases p.form <;> rfl
    exact ⟨place, field, hplace, by rw [hslice, hbytes, hopcode]; rfl, hfield, hdistance⟩
  case halt =>
    obtain ⟨p, hp, hlabel⟩ := h.label?_of_findIdx? findIdx?_halt
    exact ⟨_, hlabel, offset_call h le_rfl hp⟩

end Images

/-! ## Sessions -/

/-- **The static constructor is called exactly if a method has its very name.** The entry stub of an
image built by a session without code of its own then calls the static constructor and behind it the
entry method, and otherwise only the entry method. Letter case counts in the name of the method,
though not in the label that the call goes to. -/
theorem static_constructor_called_iff {s : Session} {constructor : String} (hcode : s.code = [])
    (hconstructor : config.staticConstructor = some constructor)
    (hbuild : s.build program config = .ok image) :
    (StubCalls image [constructor, config.entry] ↔
      ∃ m ∈ program.methods, m.name = constructor) ∧
    (StubCalls image [config.entry] ↔ ∀ m ∈ program.methods, m.name ≠ constructor) := by
  obtain ⟨index, layout, chunks, h⟩ := linked_of_build hcode hbuild
  have hstub := stubCalls_of_linked h
  -- The stub calls the constructor or it does not, and no image has stubs of both lengths.
  by_cases hhas : program.hasMethod constructor = true
  · have hmethod := hasMethod_iff.1 hhas
    have hnames : calledNames program config = [constructor, config.entry] := by
      simp [calledNames, hconstructor, Option.filter, hhas]
    rw [hnames] at hstub
    refine ⟨iff_of_true hstub hmethod, iff_of_false (fun hentry => ?_) (fun hnone => ?_)⟩
    · cases hstub.length_eq hentry
    · obtain ⟨m, hm, hname⟩ := hmethod
      exact hnone m hm hname
  · have hmethod : ¬∃ m ∈ program.methods, m.name = constructor := mt hasMethod_iff.2 hhas
    have hnames : calledNames program config = [config.entry] := by
      simp [calledNames, hconstructor, Option.filter, hhas]
    rw [hnames] at hstub
    refine ⟨iff_of_false (fun hboth => ?_) hmethod,
      iff_of_true hstub fun m hm hname => hmethod ⟨m, hm, hname⟩⟩
    cases hstub.length_eq hboth

/-- A kernel and its static constructor. -/
def initialised (constructor : String) : Program where
  methods := [⟨"kernel_main", [Entry.ret]⟩, ⟨constructor, [Entry.ret]⟩]

/-- Small pages, a small stack, and a static constructor. -/
def initialising : Config where
  pageAlignment := 16
  stackSize := 16
  staticConstructor := some "kinit"

/-- The constructor is called if the method is spelled as the parameter. -/
theorem static_constructor_called_iff_exact :
    ∃ image, Session.build {} (initialised "kinit") initialising = .ok image ∧
      StubCalls image ["kinit", "kernel_main"] ∧ ¬StubCalls image ["kernel_main"] := by
  have hbuilt : (Session.build {} (initialised "kinit") initialising).toOption.any
      (fun _ => true) = true := by
    decide +kernel
  obtain ⟨image, hbuild, -⟩ := exists_ok_of_any hbuilt
  obtain ⟨hcalled, honly⟩ := static_constructor_called_iff rfl rfl hbuild
  refine ⟨image, hbuild, hcalled.2 (by decide), fun hentry => ?_⟩
  exact honly.1 hentry ⟨"kinit", [Entry.ret]⟩ (by decide) rfl

/-- A constructor spelled in other letter case is a label of the image, but it is not called. -/
theorem static_constructor_skipped :
    ∃ image, Session.build {} (initialised "KINIT") initialising = .ok image ∧
      (∃ m ∈ (initialised "KINIT").methods, Text.sameName m.name "kinit" = true) ∧
      (image.label? "kinit").isSome = true ∧ ¬StubCalls image ["kinit", "kernel_main"] := by
  have hbuilt : (Session.build {} (initialised "KINIT") initialising).toOption.any
      (fun image => (image.label? "kinit").isSome &&
        image.label? haltLabel == some ⟨42, 0x10002A⟩) = true := by
    decide +kernel
  obtain ⟨image, hbuild, htest⟩ := exists_ok_of_any hbuilt
  simp only [Bool.and_eq_true, beq_iff_eq] at htest
  refine ⟨image, hbuild, ⟨⟨"KINIT", [Entry.ret]⟩, by decide, by decide⟩, htest.1, fun hcalls => ?_⟩
  obtain ⟨place, hplace, hoffset⟩ := hcalls.halt
  rw [htest.2] at hplace
  cases hplace
  cases hoffset

end BootImage.Multiboot
