import BootImage.Proofs.Decoding.Operations

/-!
# Decoding undoes encoding

The bytes that an instruction is encoded to are read back as what the instruction means, whatever
bytes follow them. So two instructions share their bytes only if they mean the same.

* `push_decodes`, `input_decodes`, … — stack, control flow and system operations.
* `Instruction.encoding_decodes` — every instruction but a branch to a label.
* `Instruction.branch_decodes` — a branch to a label, with the distance to it.
* `decode_encode` — the round trip.
-/

namespace BootImage

open Instruction

variable {cx : Context}

namespace Encoding

/-! ## Stack -/

theorem pushConstant_decodes (imm : Immediate) :
    Decodes cx.mode ⟨.push, cx.mode.width, [.number (imm.value % 2 ^ cx.mode.width.bits)]⟩
      (if imm.isShort then withImmediate { opcode := .primary 0x6A } .byte imm.value
      else withImmediate { opcode := .primary 0x68 } cx.mode.width imm.value) := by
  refine .ite (fun hshort => ?_) fun _ => ?_
  · exact (framed_opcode none _).withImmediate
      (OpcodeMap.push_short _ (Immediate.fitsByte_of_isShort hshort))
  · exact (framed_opcode none _).withImmediate (OpcodeMap.push_constant ..)

theorem push_decodes (operands : List Operand) :
    Decodes cx.mode (uniformMeaning .push operands cx) (push ⟨.push, operands⟩ cx) := by
  rcases operands with _ | ⟨op, _ | ⟨second, rest⟩⟩
  · exact .error
  · cases op with
    | register r =>
      cases r with
      | segment s => exact (framed_opcode none _).decodes (OpcodeMap.push_segment s)
      | general w n =>
        refine .ite (fun _ => .error) fun hbyte => ?_
        exact ((framed_opcode w _).full hbyte).decodes (OpcodeMap.push_register n)
    | memory m =>
      refine .bind fun w hw => .ite (fun _ => .error) fun hbyte => ?_
      rw [uniformMeaning_memory _ hw rfl]
      exact ((framed_onMemory cx w _ (by decide) m).full hbyte).decodes
        (OpcodeMap.indirect_rm _ rfl)
    | immediate v => exact pushConstant_decodes { value := v }
    | label name => exact pushConstant_decodes { value := cx.target.getD 0, symbolic := true }
  · cases op with
    | register r => cases r <;> exact .error
    | _ => exact .error

theorem pop_decodes (operands : List Operand) :
    Decodes cx.mode (uniformMeaning .pop operands cx) (pop ⟨.pop, operands⟩ cx) := by
  rcases operands with _ | ⟨op, _ | ⟨second, rest⟩⟩
  · exact .error
  · cases op with
    | register r =>
      cases r with
      | segment s =>
        cases s with
        -- The opcode would be `0F`, which is the escape byte.
        | cs => exact .error
        | _ => exact (framed_opcode none _).decodes (OpcodeMap.pop_segment rfl)
      | general w n =>
        refine .ite (fun _ => .error) fun hbyte => ?_
        exact ((framed_opcode w _).full hbyte).decodes (OpcodeMap.pop_register n)
    | memory m =>
      refine .bind fun w hw => .ite (fun _ => .error) fun hbyte => ?_
      rw [uniformMeaning_memory _ hw rfl]
      exact ((framed_onMemory cx w _ (by decide) m).full hbyte).decodes (OpcodeMap.pop_rm _)
    | _ => exact .error
  · cases op with
    | register r => cases r <;> exact .error
    | _ => exact .error

/-! ## Control flow -/

theorem indirect_decodes (number : Nat) {op : Mnemonic}
    (h : OpcodeMap.indirectOf? number = some op) (hnumber : number < 8) (dst : Operand) :
    Decodes cx.mode (uniformMeaning op [dst] cx) (indirect ⟨op, [dst]⟩ cx number dst) := by
  cases dst with
  | register r =>
    refine .bind fun w hw => .ite (fun _ => .error) fun hbyte => ?_
    obtain ⟨n, rfl⟩ := general_of_generalWidth hw
    exact ((framed_onRegister w _ hnumber w n).full hbyte).decodes (OpcodeMap.indirect_rm _ h)
  | memory m =>
    obtain ⟨size, segment, base, index, scale, displacement⟩ := m
    cases size with
    | word =>
      exact (framed_onMemory cx Width.word _ hnumber _).decodes (OpcodeMap.indirect_rm _ h)
    | dword =>
      exact (framed_onMemory cx Width.dword _ hnumber _).decodes (OpcodeMap.indirect_rm _ h)
    | _ => exact .error
  | _ => exact .error

theorem jmp_decodes (operands : List Operand) (length : Nat)
    (h : branchTarget? ⟨.jmp, operands⟩ = none) :
    Decodes cx.mode (branchMeaning .jmp operands cx length) (jmp ⟨.jmp, operands⟩ cx) := by
  rcases operands with _ | ⟨op, _ | ⟨second, rest⟩⟩
  · exact .error
  · cases op with
    | label name => cases h
    | _ => exact indirect_decodes 4 rfl (by decide) _
  · cases op <;> exact .error

theorem call_decodes (operands : List Operand) (length : Nat)
    (h : branchTarget? ⟨.call, operands⟩ = none) :
    Decodes cx.mode (branchMeaning .call operands cx length) (call ⟨.call, operands⟩ cx) := by
  rcases operands with _ | ⟨op, _ | ⟨second, rest⟩⟩
  · exact .error
  · cases op with
    | label name => cases h
    | _ => exact indirect_decodes 2 rfl (by decide) _
  · cases op <;> exact .error

theorem jcc_decodes (c : Condition) (operands : List Operand) (length : Nat)
    (h : branchTarget? ⟨.jcc c, operands⟩ = none) :
    Decodes cx.mode (branchMeaning (.jcc c) operands cx length) (jcc c ⟨.jcc c, operands⟩ cx) := by
  rcases operands with _ | ⟨op, _ | ⟨second, rest⟩⟩
  · exact .error
  · cases op with
    | label name => cases h
    | _ => exact .error
  · cases op <;> exact .error

theorem ret_decodes (operands : List Operand) :
    Decodes cx.mode ⟨.ret, cx.mode.width, operands.map (·.decoded cx .word)⟩
      (ret ⟨.ret, operands⟩) := by
  rcases operands with _ | ⟨op, _ | ⟨second, rest⟩⟩
  · exact (framed_opcode none _).decodes OpcodeMap.ret
  · cases op with
    | immediate v =>
      exact .bind fun _ _ => (framed_opcode none _).withImmediate (OpcodeMap.ret_constant v)
    | _ => exact .error
  · cases op <;> exact .error

theorem int_decodes (operands : List Operand) :
    Decodes cx.mode ⟨.int, none, operands.map (·.decoded cx .byte)⟩ (int ⟨.int, operands⟩) := by
  rcases operands with _ | ⟨op, _ | ⟨second, rest⟩⟩
  · exact .error
  · cases op with
    | immediate v =>
      exact .bind fun _ _ => (framed_opcode none _).withImmediate (OpcodeMap.int_constant v)
    | _ => exact .error
  · cases op <;> exact .error

/-! ## Input, output and system -/

theorem accumulatorWidth_eq_ok {i : Instruction} {r : Register} {w : Width}
    (h : accumulatorWidth i r = .ok w) : r = .general w 0 := by
  unfold accumulatorWidth at h
  split at h <;> cases h
  rfl

/-- A transfer by its I/O address: a number, or the register `dx`. -/
theorem transfer_decodes {i : Instruction} {w : Width} {address : Operand} {operation : Mnemonic}
    (opcode : Nat) (operands : DecodedOperand → List DecodedOperand)
    (hnumber : ∀ v, Frame.Denotes
      ⟨cx.mode.fullWidth w, .primary (opcode + w.opcodeBit), 0, none⟩
      (LittleEndian.ofInt Width.byte.bytes v)
      ⟨operation, w, operands (.number (v % 2 ^ Width.byte.bits))⟩)
    (hdx : Frame.Denotes ⟨cx.mode.fullWidth w, .primary (opcode + 8 + w.opcodeBit), 0, none⟩ []
      ⟨operation, w, operands (.register .dx)⟩) :
    Decodes cx.mode ⟨operation, w, operands (address.decoded cx .byte)⟩
      (transfer i w opcode address) := by
  unfold transfer
  split
  · exact .bind fun _ _ => (framed_opcode w _).withImmediate (hnumber _)
  · exact (framed_opcode w _).decodes hdx
  · exact .error

theorem input_decodes (operands : List Operand) :
    Decodes cx.mode (mixedMeaning .input operands (fun _ => .byte) cx)
      (input ⟨.input, operands⟩) := by
  rcases operands with _ | ⟨dst, _ | ⟨src, _ | ⟨third, rest⟩⟩⟩
  · exact .error
  · cases dst <;> exact .error
  · cases dst with
    | register r =>
      refine .bind fun w hw => ?_
      obtain rfl := accumulatorWidth_eq_ok hw
      exact transfer_decodes 0xE4 (fun address => [.register (.general w 0), address])
        OpcodeMap.input_constant OpcodeMap.input_dx
    | _ => exact .error
  · cases dst <;> exact .error

theorem output_decodes (operands : List Operand) :
    Decodes cx.mode (outputMeaning operands cx) (output ⟨.output, operands⟩) := by
  rcases operands with _ | ⟨dst, _ | ⟨src, _ | ⟨third, rest⟩⟩⟩
  · exact .error
  · exact .error
  · cases src with
    | register r =>
      refine .bind fun w hw => ?_
      obtain rfl := accumulatorWidth_eq_ok hw
      exact transfer_decodes 0xE6 (fun address => [address, .register (.general w 0)])
        OpcodeMap.output_constant OpcodeMap.output_dx
    | _ => exact .error
  · cases src <;> exact .error

theorem table_decodes (op : TableOp) (operands : List Operand) :
    Decodes cx.mode (addressMeaning (.table op) operands cx)
      (table op ⟨.table op, operands⟩ cx) := by
  have hnumber : op.number < 8 := by cases op <;> decide
  rcases operands with _ | ⟨dst, _ | ⟨second, rest⟩⟩
  · exact .error
  · cases dst with
    | memory m =>
      exact (framed_onMemory cx none _ hnumber m).decodes (OpcodeMap.table_address ..)
    | _ => exact .error
  · cases dst <;> exact .error

theorem plain_decodes (op : PlainOp) (operands : List Operand) :
    Decodes cx.mode ⟨.plain op, op.widthIn cx.mode, []⟩ (plain op ⟨.plain op, operands⟩) := by
  rcases operands with _ | ⟨dst, rest⟩
  · exact (framed_opcode (plainWidth op) _).decodes (OpcodeMap.plain_opcode op)
  · exact .error

end Encoding

namespace Instruction

variable {i : Instruction} {b : List UInt8} {name : String}

/-- Every instruction but a branch to a label is decoded as what it means. -/
theorem encoding_decodes (i : Instruction) (length : Nat) (h : i.branchTarget? = none) :
    Decodes cx.mode (i.meaning cx length) (i.encoding cx) := by
  obtain ⟨mnemonic, operands⟩ := i
  -- One lemma for each encoder, along the dispatch of `encoding`.
  cases mnemonic with
  | mov => exact Encoding.mov_decodes operands
  | movzx => exact Encoding.movExtending_decodes (.inl ⟨rfl, rfl⟩) operands
  | movsx => exact Encoding.movExtending_decodes (.inr ⟨rfl, rfl⟩) operands
  | lea => exact Encoding.lea_decodes operands
  | xchg => exact Encoding.xchg_decodes operands
  | arithmetic op => exact Encoding.arithmetic_decodes op operands
  | test => exact Encoding.test_decodes operands
  | unary op =>
    have hop : OpcodeMap.unaryOf? op.number = some (.unary op) := by cases op <;> rfl
    exact Encoding.unary_decodes hop (by cases op <;> decide) operands
  | imul => exact Encoding.imul_decodes operands
  | step op => exact Encoding.step_decodes op operands
  | shift op => exact Encoding.shift_decodes op operands
  | push => exact Encoding.push_decodes operands
  | pop => exact Encoding.pop_decodes operands
  | call => exact Encoding.call_decodes operands length h
  | ret => exact Encoding.ret_decodes operands
  | jmp => exact Encoding.jmp_decodes operands length h
  | jcc c => exact Encoding.jcc_decodes c operands length h
  | setcc c => exact Encoding.setcc_decodes c operands
  | input => exact Encoding.input_decodes operands
  | output => exact Encoding.output_decodes operands
  | int => exact Encoding.int_decodes operands
  | table op => exact Encoding.table_decodes op operands
  | plain op => exact Encoding.plain_decodes op operands

theorem meaning_branch (h : i.branchTarget? = some name) (cx : Context) (length : Nat) :
    i.meaning cx length =
      ⟨i.mnemonic, cx.mode.width, [.distance (Encoding.branchDistance cx length)]⟩ := by
  obtain ⟨mnemonic, operands⟩ := i
  unfold branchTarget? at h
  split at h
  case isFalse => cases h
  case isTrue hbranch =>
    obtain rfl : operands = [.label name] := operands_of_soleLabel? h
    cases mnemonic <;> simp only [Mnemonic.isBranch, Bool.false_eq_true] at hbranch <;> rfl

theorem isBranch_of_branchTarget? (h : i.branchTarget? = some name) :
    i.mnemonic.isBranch = true := by
  unfold branchTarget? at h
  split at h
  case isTrue hbranch => exact hbranch
  case isFalse => cases h

theorem branch_decodes (h : i.branchTarget? = some name) :
    Decodes cx.mode (i.meaning cx (i.branchLength cx.form cx.mode)) (i.encoding cx) := by
  rw [encoding_branch h, meaning_branch h]
  refine .bind fun field hfield => ?_
  obtain ⟨hreaches, rfl⟩ := Encoding.distanceField_eq_ok.1 hfield
  rintro e ⟨⟩
  exact Encoding.decode_bytes nofun
    (OpcodeMap.branch_distance _ (isBranch_of_branchTarget? h) cx.form hreaches)

theorem length_encode_branch (h : i.branchTarget? = some name) (hb : i.encode cx = .ok b) :
    b.length = i.branchLength cx.form cx.mode := by
  rw [encode_branch h] at hb
  obtain ⟨field, hfield, hok⟩ := bind_eq_ok.1 hb
  obtain ⟨-, rfl⟩ := Encoding.distanceField_eq_ok.1 hfield
  cases hok
  simp [branchLength]

/-- The bytes of an instruction are read back as what it means. -/
theorem takes_meaning (h : i.encode cx = .ok b) :
    (decode cx.mode).Takes b (i.meaning cx b.length) := by
  obtain ⟨e, he, hok⟩ := bind_eq_ok.1 h
  cases htarget : i.branchTarget? with
  | none =>
    cases hok
    exact encoding_decodes i _ htarget e he
  | some name =>
    rw [length_encode_branch htarget h]
    cases hok
    exact branch_decodes htarget e he

end Instruction

/-- **Decoding undoes encoding.** The bytes of an instruction are read back, whatever follows them,
as the instruction that they were written for. The operation is the one that was written, except
that exchanging the accumulator with itself is to do nothing. A branch to a known label is read back
with the distance from its end to the label, which is exact if it fits a signed 64-bit word and
wraps around if not. Two instructions that share their bytes mean the same. -/
theorem decode_encode (i : Instruction) (cx : Context) {b : List UInt8} (h : i.encode cx = .ok b) :
    (∀ rest, decode cx.mode (b ++ rest) = some (i.meaning cx b.length, rest)) ∧
      ((i.meaning cx b.length).operation = i.mnemonic ∨
        ∃ w w', i = ⟨.xchg, [.register (.general w 0), .register (.general w' 0)]⟩) ∧
      (∀ name target, i.branchTarget? = some name → cx.target = some target →
        ∃ distance, (i.meaning cx b.length).operands = [.distance distance] ∧
          distance % 2 ^ 64 = (target - ↑(cx.offset + b.length)) % 2 ^ 64 ∧
          (-2 ^ 63 ≤ target - ↑(cx.offset + b.length) →
            target - ↑(cx.offset + b.length) < 2 ^ 63 →
              distance = target - ↑(cx.offset + b.length))) ∧
      ∀ (i' : Instruction) (cx' : Context), cx'.mode = cx.mode → i'.encode cx' = .ok b →
        i'.meaning cx' b.length = i.meaning cx b.length := by
  have hread := takes_meaning h
  refine ⟨hread, operation_meaning i cx _, fun name target hname htarget => ?_,
    fun i' cx' hmode h' => ?_⟩
  · refine ⟨cx.counting.distance (cx.offset + b.length) target, ?_, Counting.distance_emod,
      Counting.distance_eq_sub⟩
    rw [meaning_branch hname, Encoding.branchDistance, htarget]
    rfl
  -- Both are what the decoder reads from the same bytes.
  · have hread' := takes_meaning h'
    rw [hmode] at hread'
    have hsame := (hread' []).symm.trans (hread [])
    simpa using hsame

/-- A short jump backwards. -/
theorem decode_encode_short :
    encode ⟨.jcc .equal, [.label "loop"]⟩ { form := .short, offset := 10, target := some 3 } =
        .ok [0x74, 0xF7] ∧
      ∀ rest, decode .bits32 ([0x74, 0xF7] ++ rest) =
        some (⟨.jcc .equal, some .dword, [.distance (-9)]⟩, rest) :=
  ⟨rfl, (decode_encode ⟨.jcc .equal, [.label "loop"]⟩
    { form := .short, offset := 10, target := some 3 } rfl).1⟩

/-- A jump from the upper half of the offsets to a negative target: the distance in it is not the
one from its end to the target. -/
theorem decode_encode_wraps :
    encode ⟨.jmp, [.label "far"]⟩ { offset := 2 ^ 63, target := some (-2 ^ 63 + 100) } =
        .ok [0xE9, 0x5F, 0x00, 0x00, 0x00] ∧
      decode .bits32 [0xE9, 0x5F, 0x00, 0x00, 0x00] =
        some (⟨.jmp, some .dword, [.distance 95]⟩, []) ∧
      (95 : Int) ≠ (-2 ^ 63 + 100) - ↑(2 ^ 63 + 5) :=
  ⟨rfl, rfl, by decide⟩

/-- In 16-bit code, a 32-bit access through `gs` takes all three overrides. -/
example :
    decode .bits16 [0x65, 0x67, 0x66, 0x81, 0x44, 0xB3, 0x08, 0x2C, 0x01, 0x00, 0x00] =
      some (⟨.arithmetic .add, some .dword,
        [.memory (some .dword) ⟨some .gs, .bits32, some .ebx, some .esi, 4, 8⟩, .number 300]⟩,
        []) := by
  rfl

end BootImage
