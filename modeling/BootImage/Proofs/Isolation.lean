import BootImage.Proofs.Composition

/-!
# What contents can change in the pieces around them

The composition refers to its own labels by name, and a name means its first definition, up to
letter case. So the methods, which stand in front of the shift routines and of the tail, can take
the name of a label there. They can also leave a mode other than the one the composition starts
in. Apart from that, the pieces are encoded as if they stood alone.

* `Linked.branchesTo_block` — a branch whose target is not defined before goes there.
* `jumpsWithin_entryStub`, `jumpsWithin_routine` — the jumps of a piece stay in it.
* `composition_isolated` — what can be said whatever the methods contain.
* `composition_not_isolated` — a method and a label that change all of it.
-/

namespace BootImage

/-! ## Branches of an image -/

namespace Image

/-- The branch `i`, at position `k` of the stream, holds the distance to the entry at
position `j`. -/
def BranchesTo (image : Image) (i : Instruction) (k j : Nat) : Prop :=
  ∃ line target form field, image.lines[k]? = some line ∧ image.lines[j]? = some target ∧
    image.slice line = (i.mnemonic.branchOpcode form).bytes ++ field ∧
    LittleEndian.toInt field + (line.offset + line.length) = target.offset

/-- The instruction `i`, at position `k` of the stream, is written as code of the given mode. -/
def WrittenIn (image : Image) (i : Instruction) (k : Nat) (mode : Mode) : Prop :=
  ∃ line cx, image.lines[k]? = some line ∧ cx.mode = mode ∧ i.encode cx = .ok (image.slice line)

/-- Every jump to a label in a block, whose first entry has position `start` in the stream, goes to
the label of that name in the block. -/
def JumpsWithin (image : Image) (start : Nat) (block : Code) : Prop :=
  ∀ k i, block[k]? = some (.instruction i) → i.isShrinkable = true →
    ∃ j name, i.branchTarget? = some name ∧ block[j]? = some (.label name) ∧
      image.BranchesTo i (start + k) (start + j)

end Image

namespace Linked

variable {code front block back : Code} {marker : Option String} {image : Image}
  {index : LabelIndex} {layout : Layout} {chunks : List (List UInt8)} {i : Instruction}
  {name : String} {k j : Nat}

theorem branchesTo (h : Linked code marker image index layout chunks)
    (hk : code[k]? = some (.instruction i)) (hname : i.branchTarget? = some name)
    (hj : code.findIdx? (·.defines name) = some j) (hwritten : k < chunks.length) :
    image.BranchesTo i k j := by
  obtain ⟨p, chunk, hp, hchunk⟩ := h.exists_chunk hwritten
  have hentry : p.entry = .instruction i :=
    Option.some.inj ((Layout.entry_of_getElem? h.laidOut hp).symm.trans hk)
  obtain ⟨q, hq, hlabel⟩ := h.label?_of_findIdx? hj
  obtain ⟨target, field, htarget, hbytes, -, hdistance⟩ :=
    (h.slice hp hchunk).1.branch i name hentry hname
  rw [hlabel] at htarget
  cases htarget
  have hline := h.line_of_place hp
  rw [decide_eq_true hwritten] at hline
  refine ⟨_, _, p.form, field, hline, h.line_of_place hq, (h.slice_line hp hchunk).trans hbytes, ?_⟩
  rw [Place.stop, Nat.cast_add] at hdistance
  exact hdistance

theorem writtenIn (h : Linked code marker image index layout chunks)
    (hk : code[k]? = some (.instruction i)) (hwritten : k < chunks.length) :
    image.WrittenIn i k (Code.modeAfter (code.take (k + 1)) .initial) := by
  obtain ⟨p, chunk, hp, hchunk⟩ := h.exists_chunk hwritten
  have hentry : p.entry = .instruction i :=
    Option.some.inj ((Layout.entry_of_getElem? h.laidOut hp).symm.trans hk)
  obtain ⟨r, -, hbytes⟩ := h.resolve_of_chunk hp hchunk
  rw [Place.chunk, hentry] at hbytes
  have hline := h.line_of_place hp
  rw [decide_eq_true hwritten] at hline
  refine ⟨_, p.context r, hline, Layout.mode_eq h.laidOut hp, ?_⟩
  rw [h.slice_line hp hchunk]
  exact hbytes

variable (h : Linked (front ++ block ++ back) marker image index layout chunks)
include h

theorem branchesTo_block (hk : block[k]? = some (.instruction i))
    (hname : i.branchTarget? = some name) (hfront : ∀ e ∈ front, e.defines name = false)
    (hj : block.findIdx? (·.defines name) = some j)
    (hwritten : (front ++ block).length ≤ chunks.length) :
    image.BranchesTo i (front.length + k) (front.length + j) := by
  have hlt : k < block.length := (List.getElem?_eq_some_iff.1 hk).1
  rw [List.length_append] at hwritten
  refine h.branchesTo ?_ hname ?_ (by omega)
  · rw [List.append_assoc, List.getElem?_append_right (Nat.le_add_right _ _),
      Nat.add_sub_cancel_left, List.getElem?_append_left hlt, hk]
  · rw [List.append_assoc, findIdx?_append_of_fresh hfront]
    rw [List.findIdx?_append, hj, Option.some_or]

end Linked

/-! ## The pieces of a composition -/

namespace Multiboot

variable {program : Program} {config : Config} {data : Code} {image : Image}

/-- Everything in front of the shift routines. -/
def beforeRoutines (program : Program) (config : Config) : Code :=
  header config ++ entryStub config program ++ methodCode program

/-- The three shift routines, each behind those in front of it. -/
def routines : List (Code × Code) :=
  [([], shiftLeft), (shiftLeft, shiftRight), (shiftLeft ++ shiftRight, shiftArithmetic)]

/-- The image ends at the end of the data that the tail marks, and the header says so. -/
def EndsAtTail (program : Program) (config : Config) (data : Code) (image : Image) : Prop :=
  ∃ line, image.lines[(body program config data).length + 1]? = some line ∧
    image.size = line.offset ∧ (image.bytes.drop 20).take 4 = LittleEndian.ofNat 4 line.address

/-- The header says that the image ends at the top of the stack that the tail marks. -/
def StackAtTail (program : Program) (config : Config) (data : Code) (image : Image) : Prop :=
  ∃ line, image.lines[(body program config data).length + 3]? = some line ∧
    (image.bytes.drop 24).take 4 = LittleEndian.ofNat 4 line.address

/-- A label that a block defines by just this name, and nothing in `before` defines at all. -/
def Owns (before block : Code) (name : String) : Prop :=
  Entry.label name ∈ block ∧
    block.findIdx? (·.defines name) = block.findIdx? (· == Entry.label name) ∧
    ∀ e ∈ before, e.defines name = false

instance (before block : Code) (name : String) : Decidable (Owns before block name) :=
  inferInstanceAs (Decidable (_ ∧ _ ∧ _))

theorem Owns.exists_findIdx? {before block : Code} {name : String} (h : Owns before block name) :
    ∃ j, block.findIdx? (·.defines name) = some j ∧ block[j]? = some (.label name) := by
  obtain ⟨hmem, hfind, -⟩ := h
  rw [hfind]
  cases hj : block.findIdx? (· == Entry.label name) with
  | none => simpa using List.findIdx?_eq_none_iff.1 hj _ hmem
  | some j =>
    obtain ⟨hlt, heq, -⟩ := List.findIdx?_eq_some_iff_getElem.1 hj
    exact ⟨j, rfl, by rw [List.getElem?_eq_getElem hlt, eq_of_beq heq]⟩

/-! ### The entry stub -/

theorem jump_of_entryStub {i : Instruction} (hi : .instruction i ∈ entryStub config program)
    (hjump : i.isShrinkable = true) : i = ⟨.jmp, [.label haltLabel]⟩ := by
  have hcall : ∀ e ∈ constructorCall config program, e ≠ .instruction i := by
    intro e he heq
    unfold constructorCall at he
    split at he
    · split at he
      · rw [heq] at he
        cases List.mem_singleton.1 he
        cases hjump
      · cases he
    · cases he
  simp only [entryStub, List.mem_append, List.mem_cons, List.not_mem_nil, or_false] at hi
  rcases hi with ((hi | hi | hi) | hi) | (hi | hi | hi)
  case inl.inr => exact absurd rfl (hcall _ hi)
  all_goals cases hi
  case inr.inr.inr.refl => rfl
  all_goals cases hjump

theorem findIdx?_haltLabel (program : Program) (config : Config) :
    ∃ j, (entryStub config program).findIdx? (·.defines haltLabel) = some j ∧
      (entryStub config program)[j]? = some (.label haltLabel) := by
  have hsplit : entryStub config program =
      ([.org config.loadAddress, .label entryLabel,
          Entry.mov (.register .esp) (.label stackTopLabel)] ++
        constructorCall config program ++ [Entry.call (.label config.entry)]) ++
      [.label haltLabel, Entry.jmp (.label haltLabel)] := by
    simp [entryStub]
  rw [hsplit]
  refine ⟨_, findIdx?_append_of_fresh (k := 0) (fun e he => ?_) rfl, ?_⟩
  · simp only [List.mem_append, List.mem_cons, List.not_mem_nil, or_false] at he
    rcases he with ((rfl | rfl | rfl) | he) | rfl
    case inl.inr => exact defines_constructorCall he
    all_goals rfl
  · rw [List.getElem?_append_right (Nat.le_add_right _ _), Nat.add_sub_cancel_left]
    rfl

/-! ### Labels and modes of the routines -/

/-- Every branch of a routine goes to a label of its own, which nothing else in front of the tail
defines, the methods apart. -/
theorem routines_own :
    ∀ x ∈ routines, ∀ e ∈ x.2, ∀ name ∈ e.branchTarget?,
      Owns ([.label entryLabel, .label haltLabel] ++ x.1) x.2 name := by
  decide +kernel

theorem routines_split : ∀ x ∈ routines, ∃ after, shiftRoutines = x.1 ++ x.2 ++ after := by
  intro x hx
  simp only [routines, List.mem_cons, List.not_mem_nil, or_false] at hx
  rcases hx with rfl | rfl | rfl
  · exact ⟨shiftRight ++ shiftArithmetic, by simp [shiftRoutines]⟩
  · exact ⟨shiftArithmetic, by simp [shiftRoutines]⟩
  · exact ⟨[], by simp [shiftRoutines]⟩

theorem bits_notMem_shiftRoutines (mode : Mode) : Entry.bits mode ∉ shiftRoutines := by
  intro hmem
  rcases shiftRoutines_plain _ hmem with h | h <;> cases h

theorem bits_notMem_header_entryStub (mode : Mode) :
    Entry.bits mode ∉ header config ++ entryStub config program := by
  have hcall : Entry.bits mode ∉ constructorCall config program := by
    unfold constructorCall
    split
    · split <;> simp [Entry.call, Entry.machine]
    · simp
  simp [header, entryStub, Entry.dd, Entry.ddAddress, Entry.mov, Entry.call, Entry.jmp,
    Entry.machine, hcall]

/-- In front of the routines, only methods set the mode. -/
theorem modeAfter_beforeRoutines (mode : Mode) :
    Code.modeAfter (beforeRoutines program config) mode =
      Code.modeAfter (methodCode program) mode := by
  rw [beforeRoutines, Code.modeAfter_append,
    Code.modeAfter_eq_self bits_notMem_header_entryStub]

section Pieces

variable {index : LabelIndex} {layout : Layout} {chunks : List (List UInt8)}

variable (h : Linked (compose program config data) (some dataEndLabel) image index layout chunks)
include h

theorem jumpsWithin_entryStub :
    image.JumpsWithin (header config).length (entryStub config program) := by
  intro k i hk hjump
  obtain rfl := jump_of_entryStub (List.mem_of_getElem? hk) hjump
  obtain ⟨j, hj, hlabel⟩ := findIdx?_haltLabel program config
  have hle := length_header_entryStub_le h
  have hsplit : compose program config data = header config ++ entryStub config program ++
      (methodCode program ++ shiftRoutines ++ staticData program ++ data ++ tail config) := by
    simp [compose]
  rw [hsplit] at h
  exact ⟨j, haltLabel, rfl, hlabel,
    h.branchesTo_block hk rfl (fun e => defines_header) hj hle⟩

theorem endsAtTail (hfresh : ∀ e ∈ contents program data, e.defines dataEndLabel = false) :
    EndsAtTail program config data image := by
  obtain ⟨hmarker, p, hp, hsize⟩ := h.size_eq rfl
  obtain ⟨q, hq, hlabel⟩ := h.label?_of_findIdx? hmarker
  rw [hp] at hq
  cases hq
  have hline := h.line_of_place hp
  rw [length_chunks h hfresh] at hline
  refine ⟨_, hline, hsize, ?_⟩
  have hword := header_word h (k := 5) rfl
  rw [DataValue.bytesIn, hlabel] at hword
  exact hword

theorem stackAtTail (hfresh : ∀ e ∈ contents program data, e.defines stackTopLabel = false) :
    StackAtTail program config data image := by
  obtain ⟨p, hp, hlabel⟩ := h.label?_of_findIdx? (findIdx?_tail (.inr rfl) hfresh (k := 3) rfl)
  have hword := header_word h (k := 6) rfl
  rw [DataValue.bytesIn, hlabel] at hword
  exact ⟨_, h.line_of_place hp, hword⟩

/-! ### The shift routines -/

/-- The shift routines are written if no method ends the data. -/
theorem length_beforeRoutines_le
    (hmethods : ∀ e ∈ methodCode program, e.defines dataEndLabel = false) :
    (beforeRoutines program config ++ shiftRoutines).length ≤ chunks.length := by
  obtain ⟨hmarker, -⟩ := h.size_eq rfl
  have hsplit : compose program config data = (beforeRoutines program config ++ shiftRoutines) ++
      (staticData program ++ data ++ tail config) := by
    simp [compose, beforeRoutines]
  rw [hsplit] at hmarker
  refine length_le_of_findIdx? (fun e he => ?_) hmarker
  simp only [beforeRoutines, List.mem_append] at he
  rcases he with ((he | he) | he) | he
  · exact defines_header he
  · exact defines_entryStub (by decide) (by decide) he
  · exact hmethods e he
  · revert e
    decide +kernel

theorem jumpsWithin_routine
    (hmethods : ∀ e ∈ methodCode program, e.defines dataEndLabel = false) {before routine : Code}
    (hroutine : (before, routine) ∈ routines)
    (hfresh : ∀ e ∈ routine, ∀ name, e.branchTarget? = some name →
      ∀ m ∈ methodCode program, m.defines name = false) :
    image.JumpsWithin (beforeRoutines program config ++ before).length routine := by
  intro k i hk hjump
  obtain ⟨name, hname⟩ := Instruction.branchTarget?_of_isShrinkable hjump
  have hi := List.mem_of_getElem? hk
  have howns := routines_own _ hroutine _ hi name hname
  obtain ⟨j, hj, hlabel⟩ := howns.exists_findIdx?
  obtain ⟨after, hafter⟩ := routines_split _ hroutine
  have hle := length_beforeRoutines_le h hmethods
  have hsplit : compose program config data =
      (beforeRoutines program config ++ before) ++ routine ++
      (after ++ staticData program ++ data ++ tail config) := by
    rw [compose, hafter]
    simp [beforeRoutines]
  rw [hsplit] at h
  -- What stands in front of the routine: the header, the entry stub, the methods and the other
  -- routines. Only the methods could define the label, and they do not.
  refine ⟨j, name, hname, hlabel, h.branchesTo_block hk hname (fun e he => ?_) hj ?_⟩
  · simp only [beforeRoutines, List.mem_append] at he
    rcases he with ((he | he) | he) | he
    · exact defines_header he
    · exact defines_entryStub (howns.2.2 (.label entryLabel) (by simp))
        (howns.2.2 (.label haltLabel) (by simp)) he
    · exact hfresh _ hi name hname e he
    · exact howns.2.2 e (by simp [he])
  · rw [hafter] at hle
    simp only [List.length_append] at hle ⊢
    omega

theorem writtenIn_routines
    (hmethods : ∀ e ∈ methodCode program, e.defines dataEndLabel = false) {k : Nat}
    {i : Instruction} (hk : shiftRoutines[k]? = some (.instruction i)) :
    image.WrittenIn i ((beforeRoutines program config).length + k)
      (Code.modeAfter (methodCode program) .initial) := by
  have hle := length_beforeRoutines_le h hmethods
  have hlt : k < shiftRoutines.length := (List.getElem?_eq_some_iff.1 hk).1
  have hsplit : compose program config data = beforeRoutines program config ++ (shiftRoutines ++
      (staticData program ++ data ++ tail config)) := by
    simp [compose, beforeRoutines]
  have hmode : Code.modeAfter
      ((compose program config data).take ((beforeRoutines program config).length + k + 1))
      .initial = Code.modeAfter (methodCode program) .initial := by
    rw [hsplit, Nat.add_assoc, List.take_length_add_append, List.take_append_of_le_length hlt,
      Code.modeAfter_append, modeAfter_beforeRoutines]
    exact Code.modeAfter_eq_self
      (fun mode hmem => bits_notMem_shiftRoutines mode (List.mem_of_mem_take hmem)) _
  rw [← hmode]
  rw [List.length_append] at hle
  refine h.writtenIn ?_ (by omega)
  rw [hsplit, List.getElem?_append_right (Nat.le_add_right _ _), Nat.add_sub_cancel_left,
    List.getElem?_append_left hlt, hk]

end Pieces

/-! ### Sessions -/

/-- **The pieces of a composition are encoded apart from its contents**, as far as these take none
of its names. The jumps of the entry stub always stay in it. The header and the image end at the labels
of the tail, unless the contents define them. Unless a method ends the data, the jumps of a shift
routine stay in it if no method defines a label that they name, and the routines are written in the
mode that the methods leave. -/
theorem composition_isolated {s : Session} (hcode : s.code = [])
    (hbuild : s.build program config = .ok image) :
    image.JumpsWithin (header config).length (entryStub config program) ∧
    ((∀ e ∈ contents program s.data, e.defines dataEndLabel = false) →
      EndsAtTail program config s.data image) ∧
    ((∀ e ∈ contents program s.data, e.defines stackTopLabel = false) →
      StackAtTail program config s.data image) ∧
    ((∀ e ∈ methodCode program, e.defines dataEndLabel = false) →
      (∀ before routine, (before, routine) ∈ routines →
        (∀ e ∈ routine, ∀ name, e.branchTarget? = some name →
          ∀ m ∈ methodCode program, m.defines name = false) →
        image.JumpsWithin (beforeRoutines program config ++ before).length routine) ∧
      ∀ k i, shiftRoutines[k]? = some (.instruction i) →
        image.WrittenIn i ((beforeRoutines program config).length + k)
          (Code.modeAfter (methodCode program) .initial)) := by
  obtain ⟨index, layout, chunks, h⟩ := linked_of_build hcode hbuild
  exact ⟨jumpsWithin_entryStub h, endsAtTail h, stackAtTail h, fun hmethods =>
    ⟨fun _ _ => jumpsWithin_routine h hmethods, fun _ _ => writtenIn_routines h hmethods⟩⟩

/-- A method with the name of the end of a routine, which leaves 16-bit mode. -/
def intruder : Program where
  methods := [⟨"kernel_main", [.label "lshl_exit", Entry.ret, .bits .bits16]⟩]

/-- Data that ends where it is put. -/
def intruding : Session where
  data := [.label "__IMAGE_DATA_END"]

/-- Small pages and a small stack. -/
def smallPages : Config where
  pageAlignment := 16
  stackSize := 16

/-- In spite of the intruder, the entry stub and the stack are as they should be. -/
theorem composition_isolated_intruder :
    ∃ image, intruding.build intruder smallPages = .ok image ∧
      image.JumpsWithin (header smallPages).length (entryStub smallPages intruder) ∧
      StackAtTail intruder smallPages intruding.data image ∧
      ∀ k i, shiftRoutines[k]? = some (.instruction i) →
        image.WrittenIn i ((beforeRoutines intruder smallPages).length + k) .bits16 := by
  have hbuilt : (intruding.build intruder smallPages).toOption.any (fun _ => true) = true := by
    decide +kernel
  obtain ⟨image, hbuild, -⟩ := exists_ok_of_any hbuilt
  obtain ⟨hstub, -, hstack, hroutines⟩ := composition_isolated rfl hbuild
  exact ⟨image, hbuild, hstub, hstack (by decide +kernel), (hroutines (by decide +kernel)).2⟩

/-- A label in a method or in the data, in any letter case, takes the place of the composition's
own, and the mode that a method leaves is that of the shift routines. -/
theorem composition_not_isolated :
    ∃ image, intruding.build intruder smallPages = .ok image ∧
      ¬EndsAtTail intruder smallPages intruding.data image ∧
      ¬image.JumpsWithin (beforeRoutines intruder smallPages).length shiftLeft ∧
      ¬image.WrittenIn
        ⟨.mov, [.register .ecx, .memory ((Memory.ofBase .dword .esp).withDisplacement 12)]⟩
        ((beforeRoutines intruder smallPages).length + 1) .bits32 := by
  -- The image is computed once; the three facts are read off its lines.
  have hbuilt : (intruding.build intruder smallPages).toOption.any (fun image =>
      image.size == 317 && image.lines[114]? == some ⟨320, 0x100140, 0, "__image_data_end:"⟩ &&
      image.lines[19]? == some ⟨45, 0x10002D, 6, "mov ecx, dword [esp+12]"⟩ &&
      image.slice ⟨45, 0x10002D, 6, "mov ecx, dword [esp+12]"⟩ ==
        [0x67, 0x66, 0x8B, 0x4C, 0x24, 0x0C] &&
      image.lines[28]? == some ⟨80, 0x100050, 2, "je LSHL_EXIT"⟩ &&
      image.slice ⟨80, 0x100050, 2, "je LSHL_EXIT"⟩ == [0x74, 0xDA] &&
      image.lines[50]? == some ⟨141, 0x10008D, 0, "LSHL_EXIT:"⟩) = true := by
    decide +kernel
  obtain ⟨image, hbuild, htest⟩ := exists_ok_of_any hbuilt
  simp only [Bool.and_eq_true, beq_iff_eq] at htest
  obtain ⟨⟨⟨⟨⟨⟨hsize, htail⟩, hmov⟩, hmovBytes⟩, hje⟩, hjeBytes⟩, hexit⟩ := htest
  refine ⟨image, hbuild, ?_, ?_, ?_⟩
  · rintro ⟨line, hline, hend, -⟩
    cases Option.some.inj (htail.symm.trans hline)
    exact absurd (hsize.symm.trans hend) (by decide)
  -- The routine has one label of that name, at its end, and the jump goes back instead.
  · intro hjumps
    obtain ⟨j, name, hname, hlabel, hbranch⟩ :=
      hjumps 10 ⟨.jcc .equal, [.label "LSHL_EXIT"]⟩ rfl rfl
    cases hname
    have hexits : ∀ j < shiftLeft.length, shiftLeft[j]? = some (.label "LSHL_EXIT") → j = 32 := by
      decide +kernel
    obtain rfl := hexits j (List.getElem?_eq_some_iff.1 hlabel).1 hlabel
    obtain ⟨line, target, form, field, hline, htarget, hslice, hdistance⟩ := hbranch
    cases Option.some.inj (hje.symm.trans hline)
    cases Option.some.inj (hexit.symm.trans htarget)
    rw [hjeBytes] at hslice
    cases form with
    | near => cases hslice
    | short =>
      cases hslice
      revert hdistance
      decide
  -- In 32-bit code the bytes would have no prefixes, whatever else the context holds.
  · rintro ⟨line, cx, hline, hmode, hencode⟩
    cases Option.some.inj (hmov.symm.trans hline)
    rw [hmovBytes] at hencode
    obtain ⟨mode, form, offset, target, symbol⟩ := cx
    cases hmode
    cases hencode

end Multiboot

end BootImage
