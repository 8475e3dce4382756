import BootImage.Proofs.Convergence
import BootImage.Proofs.Encoders

/-!
# The bytes of one entry

An entry of a settled layout is written with the labels resolved in that layout. A branch gets
its opcode and its distance; any other instruction gets the encoding it was sized with, with the
fields for its labels written. Either takes the bytes that the layout reserves for it, or it is
refused because a number does not fit its field.

* `resolve_target`, `resolve_symbol` — the values that the labels of an entry resolve to.
* `chunk_branch`, `chunk_instruction` — the bytes of an instruction.
* `length_chunk` — a chunk is as long as its entry was laid out.
* `error_of_chunk` — why an entry is refused.
-/

namespace BootImage

/-! ## Lengths -/

namespace Encoding

variable (e : Encoding) {symbol symbol' value value' : Option (Width × Int)}

theorem length_immediate_filled (hvalue : value.map Prod.fst = value'.map Prod.fst) :
    (e.filled symbol value).immediate.length = (e.filled symbol' value').immediate.length := by
  cases value <;> cases value' <;> simp_all [filled]

theorem length_filled (hsymbol : symbol.map Prod.fst = symbol'.map Prod.fst)
    (hvalue : value.map Prod.fst = value'.map Prod.fst) (mode : Mode) :
    ((e.filled symbol value).bytes mode).length =
      ((e.filled symbol' value').bytes mode).length := by
  have himmediate : (e.filled symbol value).immediate.length =
      (e.filled symbol' value').immediate.length := e.length_immediate_filled hvalue
  have haddressing : ((e.filled symbol value).addressing.elim [] Addressing.bytes).length =
      ((e.filled symbol' value').addressing.elim [] Addressing.bytes).length := by
    cases haddr : e.addressing <;> cases symbol <;> cases symbol' <;>
      simp_all [filled, Addressing.bytes]
  simp only [bytes, body, List.length_append, himmediate, haddressing]
  rfl

/-- The immediate field is at the end of an instruction. -/
theorem bytes_filled_value (symbol : Option (Width × Int)) (w : Width) (v : Int) (mode : Mode) :
    ∃ front, (e.filled symbol (some (w, v))).bytes mode =
      front ++ LittleEndian.ofInt w.bytes v := by
  refine ⟨(e.filled symbol (some (w, v))).overrides mode ++ (e.opcode.bytes ++
    (e.filled symbol (some (w, v))).addressing.elim [] Addressing.bytes), ?_⟩
  rw [List.append_assoc]
  rfl

/-- The displacement is directly in front of the immediate field. -/
theorem bytes_filled_symbol (h : e.addressing.isSome = true) (w : Width) (v : Int)
    (value : Option (Width × Int)) (mode : Mode) :
    ∃ front, (e.filled (some (w, v)) value).bytes mode =
      front ++ LittleEndian.ofInt w.bytes v ++ (e.filled (some (w, v)) value).immediate := by
  obtain ⟨a, ha⟩ := Option.isSome_iff_exists.1 h
  refine ⟨(e.filled (some (w, v)) value).overrides mode ++ (e.opcode.bytes ++
    (a.modrm.byte :: (a.sib.map Sib.byte).toList)), ?_⟩
  simp [bytes, body, filled, ha, Addressing.bytes]

end Encoding

/-- An instruction is sized with zeros in the fields for its labels. -/
theorem Instruction.encoding_sizing {i : Instruction} (h : i.branchTarget? = none) {mode : Mode}
    {form : BranchForm} {e : Encoding} (he : i.encoding (.sizing mode form) = .ok e) :
    e = e.filled (i.symbolField? (.sizing mode form)) (i.valueField? (.sizing mode form)) := by
  have hfill := (i.encoding_fills h (.sizing mode form) _).eq_fill he
  rw [he] at hfill
  exact (Encoding.fill_eq_ok.1 hfill.symm).2.2

theorem Instruction.width_symbolField? (i : Instruction) (cx cx' : Context)
    (h : cx.mode = cx'.mode) :
    (i.symbolField? cx).map Prod.fst = (i.symbolField? cx').map Prod.fst := by
  simp only [symbolField?, Memory.symbolField?]
  cases i.memory? with
  | none => rfl
  | some m => cases hlabel : m.labelRef? <;> simp [hlabel, h]

theorem Instruction.width_valueField? (i : Instruction) (cx cx' : Context)
    (h : cx.mode = cx'.mode) :
    (i.valueField? cx).map Prod.fst = (i.valueField? cx').map Prod.fst := by
  simp only [valueField?]
  cases i.absoluteLabel? <;> simp [h]

theorem Instruction.length_filled {i : Instruction} (h : i.branchTarget? = none) (cx : Context)
    {e : Encoding} (he : i.encoding (.sizing cx.mode cx.form) = .ok e) :
    ((e.filled (i.symbolField? cx) (i.valueField? cx)).bytes cx.mode).length =
      (e.bytes cx.mode).length := by
  have hlength := Encoding.length_filled e
    (i.width_symbolField? cx (.sizing cx.mode cx.form) rfl)
    (i.width_valueField? cx (.sizing cx.mode cx.form) rfl) cx.mode
  rw [hlength, ← Instruction.encoding_sizing h he]

theorem Instruction.length_immediate {i : Instruction} (h : i.branchTarget? = none) (cx : Context)
    {e : Encoding} (he : i.encoding (.sizing cx.mode cx.form) = .ok e) :
    (e.filled (i.symbolField? cx) (i.valueField? cx)).immediate.length = e.immediate.length := by
  have hsizing := congrArg (·.immediate.length) (Instruction.encoding_sizing h he)
  refine Eq.trans ?_ hsizing.symm
  exact e.length_immediate_filled (i.width_valueField? cx (.sizing cx.mode cx.form) rfl)

/-! ## Labels of an instruction other than a branch -/

namespace Instruction

variable {i : Instruction} {cx : Context} {s : Width × Int}

theorem branchTarget?_of_absoluteLabel? {name : String}
    (h : i.absoluteLabel? = some name) : i.branchTarget? = none := by
  unfold absoluteLabel? at h
  split at h
  · cases h
  · rename_i hbranch
    rw [branchTarget?, if_neg hbranch]

theorem branchTarget?_of_memory? {m : Memory} (h : i.memory? = some m) :
    i.branchTarget? = none := by
  cases hname : i.branchTarget? with
  | none => rfl
  | some name =>
    unfold branchTarget? at hname
    split at hname
    · rw [memory?, operands_of_soleLabel? hname] at h
      cases h
    · cases hname

theorem label_of_valueField? (h : i.valueField? cx = some s) :
    ∃ name, i.absoluteLabel? = some name := by
  obtain ⟨name, hname, -⟩ := Option.map_eq_some_iff.1 h
  exact ⟨name, hname⟩

theorem label_of_symbolField? (h : i.symbolField? cx = some s) :
    ∃ m name delta, i.memory? = some m ∧ m.labelRef? = some (name, delta) := by
  obtain ⟨m, hm, hfield⟩ := Option.bind_eq_some_iff.1 h
  obtain ⟨⟨name, delta⟩, hlabel, -⟩ := Option.map_eq_some_iff.1 hfield
  exact ⟨m, name, delta, hm, hlabel⟩

end Instruction

/-! ## The values of labels -/

/-- The number that stands for a label defined at `target`. -/
def ReferenceKind.value (kind : ReferenceKind) (target : Place) : Int :=
  match kind with
  | absolute => target.address
  | relative => target.offset

section Resolution

variable {code : Code} {index : LabelIndex} {forms : List BranchForm} {layout : Layout}
  {p : Place} {r : Resolution}

theorem Place.resolve_eq_ok :
    p.resolve index layout = .ok r ↔
      p.resolveReference index layout = .ok r.target ∧
        p.resolveMemory index layout = .ok r.symbol := by
  obtain ⟨target, symbol⟩ := r
  simp only [resolve, bind_eq_ok, pure, Except.pure, Except.ok.injEq, Resolution.mk.injEq]
  constructor
  · rintro ⟨target', htarget, symbol', hsymbol, rfl, rfl⟩
    exact ⟨htarget, hsymbol⟩
  · rintro ⟨htarget, hsymbol⟩
    exact ⟨_, htarget, _, hsymbol, rfl, rfl⟩

variable (hindex : LabelIndex.build code = .ok index)
  (hlayout : Layout.compute code forms = .ok layout) (hr : p.resolve index layout = .ok r)
include hindex hlayout hr

theorem Place.resolve_target {name : String} {kind : ReferenceKind}
    (href : p.entry.reference? = some ⟨name, kind⟩) :
    ∃ target, layout.definition? name = some target ∧ r.target = some (kind.value target) := by
  have htarget := (resolve_eq_ok.1 hr).1
  rw [resolveReference, href] at htarget
  obtain ⟨⟨position, target⟩, hlocate, htarget⟩ := bind_eq_ok.1 htarget
  refine ⟨target, (Layout.locate_ok_iff_definition? hindex (Layout.places_entry hlayout)).1
    ⟨position, hlocate⟩, ?_⟩
  cases kind <;> exact (Except.ok.inj htarget).symm

theorem Place.resolve_symbol {name : String} {delta : Int}
    (href : p.entry.memoryLabel? = some (name, delta)) :
    ∃ target, layout.definition? name = some target ∧ r.symbol = some (target.address + delta) := by
  have hsymbol := (resolve_eq_ok.1 hr).2
  rw [resolveMemory, href] at hsymbol
  obtain ⟨⟨position, target⟩, hlocate, hsymbol⟩ := bind_eq_ok.1 hsymbol
  refine ⟨target, (Layout.locate_ok_iff_definition? hindex (Layout.places_entry hlayout)).1
    ⟨position, hlocate⟩, (Except.ok.inj hsymbol).symm⟩

theorem Place.resolve_value {i : Instruction} {name : String} (hi : p.entry = .instruction i)
    (hname : i.absoluteLabel? = some name) :
    ∃ target, layout.definition? name = some target ∧
      i.valueField? (p.context r) = some (i.labelWidth p.mode, (target.address : Int)) := by
  have href : p.entry.reference? = some ⟨name, .absolute⟩ := by
    rw [hi]
    simp [Entry.reference?, Instruction.branchTarget?_of_absoluteLabel? hname, hname]
  obtain ⟨target, hdefinition, htarget⟩ := resolve_target hindex hlayout hr href
  refine ⟨target, hdefinition, ?_⟩
  simp [Instruction.valueField?, hname, context, htarget, ReferenceKind.value]

theorem Place.resolve_displacement {i : Instruction} {m : Memory} {name : String} {delta : Int}
    (hi : p.entry = .instruction i) (hm : i.memory? = some m)
    (hlabel : m.labelRef? = some (name, delta)) :
    ∃ target, layout.definition? name = some target ∧
      i.symbolField? (p.context r) = some (m.addressWidth p.mode, target.address + delta) := by
  have href : p.entry.memoryLabel? = some (name, delta) := by
    rw [hi]
    simp [Entry.memoryLabel?, Entry.memory?, hm, hlabel]
  obtain ⟨target, hdefinition, hsymbol⟩ := resolve_symbol hindex hlayout hr href
  refine ⟨target, hdefinition, ?_⟩
  simp [Instruction.symbolField?, Memory.symbolField?, hm, hlabel, context, hsymbol]

theorem Place.resolve_address {label : Option String} {name : String}
    (he : p.entry = .data label (.address name)) :
    ∃ target, layout.definition? name = some target ∧ r.target = some (target.address : Int) := by
  have href : p.entry.reference? = some ⟨name, .absolute⟩ := by rw [he]; rfl
  exact resolve_target hindex hlayout hr href

end Resolution

/-! ## Instructions -/

section Instructions

variable {code : Code} {index : LabelIndex} {forms : List BranchForm} {layout : Layout}
  {p : Place} {i : Instruction}

variable (hlayout : Layout.compute code forms = .ok layout) (hp : p ∈ layout.places)
  (hi : p.entry = .instruction i)
include hlayout hp hi

theorem Place.length_instruction : i.length p.mode p.form = .ok p.size := by
  have hsize := Layout.size_of_mem hlayout hp
  rw [hi] at hsize
  exact hsize

/-- A branch is its opcode and its distance. -/
theorem Place.chunk_branch {name : String} (hname : i.branchTarget? = some name)
    {r : Resolution} {target : Int} (htarget : r.target = some target) :
    p.chunk r = (do
      let field ← Encoding.distanceField name (i.mnemonic.distanceWidth p.form p.mode)
        (target - p.stop)
      pure ((i.mnemonic.branchOpcode p.form).bytes ++ field)) := by
  have hsize := length_instruction hlayout hp hi
  rw [Instruction.length_branch hname] at hsize
  rw [chunk, hi]
  simp only [Instruction.encode_branch hname, context, Encoding.branchDistance, Counting.distance,
    htarget, Option.elim, stop, Except.ok.inj hsize]

/-- Any other instruction is the encoding it was sized with, with the fields for its labels
written. -/
theorem Place.chunk_instruction (hbranch : i.branchTarget? = none) :
    ∃ e, i.encoding (.sizing p.mode p.form) = .ok e ∧ (e.bytes p.mode).length = p.size ∧
      ∀ r, p.chunk r = (do
        let e' ← e.fill (i.symbolField? (p.context r)) (i.valueField? (p.context r))
        pure (e'.bytes p.mode)) := by
  have hsize := length_instruction hlayout hp hi
  obtain ⟨bytes, hbytes, hlength⟩ := bind_eq_ok.1 hsize
  obtain ⟨e, he, hrest⟩ := bind_eq_ok.1 hbytes
  cases hrest
  refine ⟨e, he, Except.ok.inj hlength, fun r => ?_⟩
  rw [chunk, hi]
  simp only [Instruction.encode, (i.encoding_fills hbranch (p.context r) _).eq_fill he]
  rfl

end Instructions

/-! ## Data -/

namespace DataValue

variable {v : DataValue} {target : Option Int}

theorem length_encode {bytes : List UInt8} (h : v.encode target = .ok bytes) :
    bytes.length = v.length := by
  cases v with
  | address name =>
    cases target with
    | none => cases h
    | some value =>
      simp only [encode] at h
      split at h <;> cases h
      exact LittleEndian.length_ofInt 4 value
  | bytes bs =>
    cases h
    rfl
  | word w =>
    cases h
    exact LittleEndian.length_ofNat 2 _
  | dword d =>
    cases h
    exact LittleEndian.length_ofNat 4 _

theorem encode_address (name : String) (value : Int) :
    (address name).encode (some value) =
      if 0 ≤ value ∧ value < 2 ^ 32 then .ok (LittleEndian.ofInt 4 value)
      else .error (.immediateOverflow value 32) := rfl

end DataValue

/-! ## Whole entries -/

section Entries

variable {code : Code} {index : LabelIndex} {forms : List BranchForm} {layout : Layout}
  {p : Place} {r : Resolution}

variable (hindex : LabelIndex.build code = .ok index)
  (hlayout : Layout.compute code forms = .ok layout) (hp : p ∈ layout.places)
  (hr : p.resolve index layout = .ok r)
include hindex hlayout hr

/-- A branch is written with the distance to its target. -/
theorem Place.resolve_branch {i : Instruction} {name : String} (hi : p.entry = .instruction i)
    (hname : i.branchTarget? = some name) :
    ∃ target, layout.definition? name = some target ∧ r.target = some (target.offset : Int) ∧
      layout.distance? p = some ((target.offset : Int) - p.stop) := by
  have hbranch : p.entry.branchTarget? = some name := by rw [hi]; exact hname
  obtain ⟨target, hdefinition, htarget⟩ :=
    resolve_target hindex hlayout hr (Entry.reference?_of_branchTarget? hbranch)
  exact ⟨target, hdefinition, htarget, by simp [Layout.distance?, hbranch, hdefinition]⟩

include hp

theorem Place.length_chunk {bytes : List UInt8} (h : p.chunk r = .ok bytes) :
    bytes.length = p.size := by
  have hsize := Layout.size_of_mem hlayout hp
  -- Branches have sizes of their own; any other instruction keeps the length it was sized with.
  cases he : p.entry with
  | instruction i =>
    cases hname : i.branchTarget? with
    | some name =>
      obtain ⟨target, -, htarget, -⟩ := resolve_branch hindex hlayout hr he hname
      rw [chunk_branch hlayout hp he hname htarget] at h
      obtain ⟨field, hfield, hbytes⟩ := bind_eq_ok.1 h
      have hlength := length_instruction hlayout hp he
      rw [Instruction.length_branch hname] at hlength
      obtain ⟨-, rfl⟩ := Encoding.distanceField_eq_ok.1 hfield
      cases hbytes
      rw [List.length_append, Opcode.length_bytes, LittleEndian.length_ofInt]
      exact Except.ok.inj hlength
    | none =>
      obtain ⟨e, he', hlength, hchunk⟩ := chunk_instruction hlayout hp he hname
      rw [hchunk] at h
      obtain ⟨e', hfill, hbytes⟩ := bind_eq_ok.1 h
      obtain ⟨-, -, rfl⟩ := Encoding.fill_eq_ok.1 hfill
      cases hbytes
      exact (Instruction.length_filled hname (p.context r) he').trans hlength
  | data label value =>
    rw [he] at hsize
    rw [chunk, he] at h
    rw [← Except.ok.inj hsize]
    exact value.length_encode h
  | times n fill =>
    rw [he] at hsize
    rw [chunk, he] at h
    cases h
    rw [← Except.ok.inj hsize, List.length_replicate]
  | align boundary =>
    rw [chunk, he] at h
    cases h
    exact List.length_replicate
  | offset target =>
    rw [chunk, he] at h
    cases h
    exact List.length_replicate
  | _ =>
    rw [he] at hsize
    rw [chunk, he] at h
    cases h
    exact Except.ok.inj hsize

/-- An entry is refused because a number does not fit, or because its target is out of reach. -/
theorem Place.error_of_chunk {err : AssemblyError} (h : p.chunk r = .error err) :
    (∃ v bits, err = .immediateOverflow v bits) ∨
      ∃ i name d, p.entry = .instruction i ∧ i.branchTarget? = some name ∧
        layout.distance? p = some d ∧ ¬(i.mnemonic.distanceWidth p.form p.mode).Reaches d ∧
        err = .branchOutOfRange name d
          (2 ^ ((i.mnemonic.distanceWidth p.form p.mode).bits - 1) - 1) := by
  -- Only three kinds of entries can be refused: branches, fields for labels and addresses.
  cases he : p.entry with
  | instruction i =>
    cases hname : i.branchTarget? with
    | some name =>
      obtain ⟨target, -, htarget, hdistance⟩ := resolve_branch hindex hlayout hr he hname
      rw [chunk_branch hlayout hp he hname htarget] at h
      by_cases hreach : (i.mnemonic.distanceWidth p.form p.mode).Reaches (target.offset - p.stop)
      · rw [Encoding.distanceField_of_reaches hreach] at h
        cases h
      · rw [Encoding.distanceField_of_not_reaches hreach] at h
        cases h
        exact .inr ⟨i, name, _, rfl, hname, hdistance, hreach, rfl⟩
    | none =>
      obtain ⟨e, -, -, hchunk⟩ := chunk_instruction hlayout hp he hname
      rw [hchunk] at h
      cases hfill : e.fill (i.symbolField? (p.context r)) (i.valueField? (p.context r)) with
      | ok e' =>
        rw [hfill] at h
        cases h
      | error err' =>
        rw [hfill] at h
        cases h
        exact .inl (Encoding.error_of_fill hfill)
  | data label value =>
    rw [chunk, he] at h
    cases value with
    | address name =>
      obtain ⟨target, -, htarget⟩ := resolve_address hindex hlayout hr he
      simp only [htarget, DataValue.encode_address] at h
      split at h <;> cases h
      exact .inl ⟨_, _, rfl⟩
    | _ => cases h
  | _ =>
    rw [chunk, he] at h
    cases h

end Entries

end BootImage
