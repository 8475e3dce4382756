import BootImage.Proofs.Soundness

/-!
# Sizing agrees with writing

A layout reserves for an instruction what it takes with every label at zero; the instruction is
written later, with its labels resolved. The two agree: an instruction that can be written can be
sized, at the same length, and one that can be sized is written or refused because a number is out
of range. So the bytes written in front of an entry always end where the layout has put it.

* `sizing_of_encode` — what can be written has the length it was sized with.
* `outOfRange_of_encode` — what can be sized is refused only for a number out of range.
* `encode_of_labelFree` — without labels, only the mode counts.
* `Outcome.length_written` — writing keeps to the layout, entry by entry.
-/

namespace BootImage

/-- The errors for a number that does not fit its field, and for a target out of reach. -/
def AssemblyError.OutOfRange : AssemblyError → Prop
  | immediateOverflow _ _ | branchOutOfRange _ _ _ => True
  | _ => False

/-! ## Instructions -/

namespace Instruction

variable {i : Instruction} {cx cx' : Context} {bytes : List UInt8}

theorem encode_eq_ok :
    i.encode cx = .ok bytes ↔ ∃ e, i.encoding cx = .ok e ∧ e.bytes cx.mode = bytes := by
  simp [encode, bind_eq_ok, pure, Except.pure]

/-- An instruction that is not a branch to a label is the one it was sized as, filled. -/
theorem filled_of_encoding (hbranch : i.branchTarget? = none) (form : BranchForm) {e' : Encoding}
    (h : i.encoding cx = .ok e') :
    ∃ e, i.encoding (.sizing cx.mode form) = .ok e ∧
      e' = e.filled (i.symbolField? cx) (i.valueField? cx) := by
  have hfills := i.encoding_fills hbranch cx form
  obtain ⟨e, he⟩ := hfills.sized_ok h
  rw [hfills.eq_fill he] at h
  exact ⟨e, he, (Encoding.fill_eq_ok.1 h).2.2⟩

theorem sizing_of_encode (h : i.encode cx = .ok bytes) :
    ∃ sized, i.encode (.sizing cx.mode cx.form) = .ok sized ∧ sized.length = bytes.length := by
  cases hname : i.branchTarget? with
  | some name =>
    have hlength := length_branch hname cx.mode cx.form
    obtain ⟨sized, hsized, hlen⟩ := bind_eq_ok.1 hlength
    refine ⟨sized, hsized, (Except.ok.inj hlen).trans ?_⟩
    rw [encode_branch hname] at h
    obtain ⟨field, hfield, hbytes⟩ := bind_eq_ok.1 h
    obtain ⟨-, rfl⟩ := Encoding.distanceField_eq_ok.1 hfield
    cases hbytes
    simp [branchLength]
  | none =>
    obtain ⟨e', he', rfl⟩ := encode_eq_ok.1 h
    obtain ⟨e, he, rfl⟩ := filled_of_encoding hname cx.form he'
    exact ⟨e.bytes cx.mode, encode_eq_ok.2 ⟨e, he, rfl⟩, (length_filled hname cx he).symm⟩

/-- An instruction that can be sized is refused only because a number is out of range. -/
theorem outOfRange_of_encode {sized : List UInt8} {err : AssemblyError}
    (hsized : i.encode (.sizing cx.mode cx.form) = .ok sized) (h : i.encode cx = .error err) :
    err.OutOfRange := by
  -- A branch is refused for its distance, any other instruction for a field it fills.
  cases hname : i.branchTarget? with
  | some name =>
    rw [encode_branch hname] at h
    rcases bind_eq_error.1 h with hfield | ⟨field, -, hok⟩
    · by_cases hreach : (i.mnemonic.distanceWidth cx.form cx.mode).Reaches
          (Encoding.branchDistance cx (i.branchLength cx.form cx.mode))
      · rw [Encoding.distanceField_of_reaches hreach] at hfield
        cases hfield
      · rw [Encoding.distanceField_of_not_reaches hreach] at hfield
        cases hfield
        trivial
    · cases hok
  | none =>
    obtain ⟨e, he, -⟩ := encode_eq_ok.1 hsized
    rw [encode, (i.encoding_fills hname cx _).eq_fill he] at h
    rcases bind_eq_error.1 h with hfill | ⟨e', -, hok⟩
    · obtain ⟨v, bits, rfl⟩ := Encoding.error_of_fill hfill
      trivial
    · cases hok

/-! ## Instructions without labels -/

/-- No operand is a label, and no memory operand has one. -/
def LabelFree (i : Instruction) : Prop :=
  ∀ op ∈ i.operands, op.label? = none ∧ ∀ m, op.memory? = some m → m.labelRef? = none

namespace LabelFree

theorem label?_eq_none (h : i.LabelFree) : i.operands.findSome? Operand.label? = none :=
  List.findSome?_eq_none_iff.2 fun op hop => (h op hop).1

theorem branchTarget?_eq_none (h : i.LabelFree) : i.branchTarget? = none := by
  cases hname : i.branchTarget? with
  | none => rfl
  | some name =>
    have hlabel := h.label?_eq_none
    unfold branchTarget? at hname
    split at hname
    · rw [operands_of_soleLabel? hname] at hlabel
      cases hlabel
    · cases hname

theorem valueField?_eq_none (h : i.LabelFree) (cx : Context) : i.valueField? cx = none := by
  simp [valueField?, absoluteLabel?, h.label?_eq_none]

theorem symbolField?_eq_none (h : i.LabelFree) (cx : Context) : i.symbolField? cx = none := by
  cases hm : i.memory? with
  | none => simp [symbolField?, hm]
  | some m =>
    obtain ⟨op, hop, hmemory⟩ := List.exists_of_findSome?_eq_some hm
    simp [symbolField?, hm, Memory.symbolField?, (h op hop).2 m hmemory]

end LabelFree

theorem encode_of_labelFree (h : i.LabelFree) (hmode : cx'.mode = cx.mode)
    (hok : i.encode cx = .ok bytes) : i.encode cx' = .ok bytes := by
  have hbranch := h.branchTarget?_eq_none
  obtain ⟨e', he', rfl⟩ := encode_eq_ok.1 hok
  obtain ⟨e, he, rfl⟩ := filled_of_encoding hbranch .near he'
  have hresolved := (i.encoding_fills hbranch cx' .near).eq_fill (by rw [hmode]; exact he)
  rw [h.symbolField?_eq_none, h.valueField?_eq_none, Encoding.fill_none] at hresolved
  rw [h.symbolField?_eq_none, h.valueField?_eq_none]
  exact encode_eq_ok.2 ⟨e, hresolved, by rw [hmode]; rfl⟩

end Instruction

/-! ## Streams -/

/-- While a stream is written, every entry starts where the layout has put it, and takes the bytes
that the layout has reserved for it. -/
theorem Outcome.length_written {code : Code} {index : LabelIndex} {r : Relaxed}
    (hcode : Linkable code index) (h : Outcome code index 1 code.allNear r) {k : Nat} {p : Place}
    {resolution : Resolution} {chunks : List (List UInt8)}
    (hp : (r.layout.places.zip r.resolutions)[k]? = some (p, resolution))
    (hchunks : ((r.layout.places.zip r.resolutions).take k).mapM (fun (p, r) => p.chunk r) =
      .ok chunks) :
    chunks.flatten.length = p.offset ∧
      ∀ bytes, p.chunk resolution = .ok bytes → bytes.length = p.size := by
  have hsizes : List.Forall₂ (fun p chunk => chunk.length = p.size) (r.layout.places.take k)
      chunks := by
    refine (h.chunks_of_mapM hchunks).imp ?_
    rintro q chunk ⟨hq, resolution', hresolve, hchunk⟩
    exact Place.length_chunk hcode.indexed h.laidOut hq hresolve hchunk
  obtain ⟨hplace, -⟩ := List.getElem?_zip_eq_some.1 hp
  obtain ⟨hmem, hresolve⟩ := h.resolve_of_mem_zip (List.mem_of_getElem? hp)
  refine ⟨?_, fun bytes => Place.length_chunk hcode.indexed h.laidOut hmem hresolve⟩
  rw [length_flatten_of_sizes hsizes, Layout.offset_eq_sum h.laidOut hplace]

/-- **Sizing agrees with writing.** An instruction that can be written in a context can be sized in
it, and takes as many bytes; one that can be sized is written, or refused because a number is out
of range; and without labels only the mode of the context counts. Hence, whatever stream is
written, each entry starts where the layout has put it and takes what the layout has reserved. -/
theorem sizing_agrees_with_writing :
    (∀ (i : Instruction) (cx : Context),
      (∀ bytes, i.encode cx = .ok bytes →
        ∃ sized, i.encode (.sizing cx.mode cx.form) = .ok sized ∧
          sized.length = bytes.length) ∧
      (∀ sized, i.encode (.sizing cx.mode cx.form) = .ok sized →
        (∃ bytes, i.encode cx = .ok bytes) ∨
          ∃ err, i.encode cx = .error err ∧ err.OutOfRange) ∧
      (i.LabelFree → ∀ cx' bytes, cx'.mode = cx.mode → i.encode cx = .ok bytes →
        i.encode cx' = .ok bytes)) ∧
    ∀ (code : Code) (index : LabelIndex) (r : Relaxed),
      LabelIndex.build code = .ok index → relax code index = .ok r →
      ∀ (k : Nat) (p : Place) (resolution : Resolution) (chunks : List (List UInt8)),
        (r.layout.places.zip r.resolutions)[k]? = some (p, resolution) →
        ((r.layout.places.zip r.resolutions).take k).mapM (fun (p, r) => p.chunk r) =
          .ok chunks →
        chunks.flatten.length = p.offset ∧
          ∀ bytes, p.chunk resolution = .ok bytes → bytes.length = p.size := by
  refine ⟨fun i cx => ⟨fun bytes => i.sizing_of_encode, fun sized hsized => ?_,
    fun hfree cx' bytes hmode => i.encode_of_labelFree hfree hmode⟩, ?_⟩
  · cases h : i.encode cx with
    | ok bytes => exact .inl ⟨bytes, rfl⟩
    | error err => exact .inr ⟨err, rfl, i.outOfRange_of_encode hsized h⟩
  · intro code index r hindex hrelax k p resolution chunks hp hchunks
    obtain ⟨hcode, hr⟩ := relax_outcome hindex hrelax
    exact hr.length_written hcode hp hchunks

/-- A store to a label in 16-bit code, whose displacement and number fit or not; the same store to
a fixed address; and a stream whose jump has become short. -/
theorem sizing_agrees_with_writing_store :
    (∃ sized : List UInt8,
      Instruction.encode ⟨.mov, [.memory (.ofLabel .word "table"), .immediate 5]⟩
        (.sizing .bits16 .near) = .ok sized ∧ sized.length = 6) ∧
    (∃ err : AssemblyError,
      Instruction.encode ⟨.mov, [.memory (.ofLabel .word "table"), .immediate 5]⟩
        { mode := .bits16, symbol := some 0x10000 } = .error err ∧ err.OutOfRange) ∧
    Instruction.encode ⟨.mov, [.memory (.absolute .word 8), .immediate 5]⟩
        { mode := .bits16, offset := 7, target := some 9 } = .ok [0xC7, 0x06, 8, 0, 5, 0] ∧
    ∃ (r : Relaxed) (p : Place) (chunk : List UInt8),
      relax [.label "a", .instruction ⟨.jmp, [.label "a"]⟩, .times 2 0] ⟨[⟨0, "a", "a"⟩]⟩ = .ok r ∧
      r.layout.places[2]? = some p ∧ p.chunk {} = .ok chunk ∧ p.offset = 2 ∧
      chunk.length = p.size := by
  obtain ⟨hinstruction, hstream⟩ := sizing_agrees_with_writing
  refine ⟨?_, ?_, ?_, ?_⟩
  · exact (hinstruction _ { mode := .bits16, symbol := some 0x1234 }).1
      [0xC7, 0x06, 0x34, 0x12, 5, 0] rfl
  · refine ((hinstruction _ _).2.1 [0xC7, 0x06, 0, 0, 5, 0] rfl).resolve_left ?_
    rintro ⟨bytes, hbytes⟩
    cases hbytes
  · refine (hinstruction _ { mode := .bits16 }).2.2 ?_ _ [0xC7, 0x06, 8, 0, 5, 0] rfl rfl
    simp [Instruction.LabelFree, Operand.label?, Operand.memory?, Memory.labelRef?,
      Memory.absolute]
  · have hrelax : relax [.label "a", .instruction ⟨.jmp, [.label "a"]⟩, .times 2 0]
        ⟨[⟨0, "a", "a"⟩]⟩ = .ok _ := rfl
    obtain ⟨hoffset, hsize⟩ := hstream _ _ _ rfl hrelax 2 _ _ [[], [0xEB, 0xFE]] rfl rfl
    exact ⟨_, _, [0, 0], hrelax, rfl, rfl, hoffset.symm, hsize _ rfl⟩

end BootImage
