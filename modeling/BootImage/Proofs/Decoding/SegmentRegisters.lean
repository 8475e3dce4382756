import BootImage.Proofs.Decoding.EffectiveAddress
import BootImage.Proofs.Decoding.RoundTrip

/-!
# Loads of segment registers

Only moves, pushes and pops work on segment registers, and of the opcodes of the map only a move
and the pops write one. There is no pop of `cs`, and the encoder refuses one; but a move has the
number of the segment register in ModR/M, so that nothing keeps `cs` out of it.

* `Decoded.destinations` — the operands that a decoded instruction writes.
* `OpcodeMap.movesSegment_of_row` — the rows of the opcode map that name a segment register.
* `code_segment_destination_iff` — exactly the moves to `cs` write it, and which of them there are.
* `code_segment_loaded` — there is one.
-/

namespace BootImage

/-- The operands that the instruction writes. A multiplication of one operand, like the other
operations of group 3 that need two registers for their result, writes the accumulator. -/
def Decoded.destinations (d : Decoded) : List DecodedOperand :=
  match d.operation, d.operands with
  | .xchg, operands => operands
  | .imul, [_] | .unary .mul, _ | .unary .div, _ | .unary .idiv, _ => []
  | .arithmetic .cmp, _ | .test, _ | .push, _ | .call, _ | .ret, _ | .jmp, _ | .jcc _, _
  | .output, _ | .int, _ | .table _, _ | .plain _, _ => []
  | _, operands => operands.take 1

/-! ## The opcode map -/

/-- Whether the operand is a segment register. -/
def Slot.isSegment : Slot → Bool
  | segment => true
  | fixed r => r.isSegment
  | _ => false

/-- The rows that name a segment register. -/
inductive Row.MovesSegment : Row → Prop where
  | store (width : Option Width) (w : Width) : MovesSegment ⟨.mov, width, [.rm w, .segment]⟩
  | load : MovesSegment ⟨.mov, some .word, [.segment, .rm .word]⟩
  | push (width : Option Width) (s : Segment) : MovesSegment ⟨.push, width, [.fixed (.segment s)]⟩
  | pop (width : Option Width) {s : Segment} (h : s ≠ .cs) :
    MovesSegment ⟨.pop, width, [.fixed (.segment s)]⟩

/-- The row, if there is one, moves a segment register or names none. -/
def SegmentsMoved (x : Option Row) : Prop :=
  ∀ row, x = some row → row.slots.any Slot.isSegment = true → row.MovesSegment

namespace SegmentsMoved

variable {x y : Option Row} {row : Row}

theorem none : SegmentsMoved none :=
  nofun

theorem moves (h : row.MovesSegment) : SegmentsMoved (some row) := by
  rintro _ ⟨⟩ -
  exact h

theorem general (h : row.slots.any Slot.isSegment = false) : SegmentsMoved (some row) := by
  rintro _ ⟨⟩ hsegment
  rw [h] at hsegment
  cases hsegment

/-- A group of rows that name no segment register. -/
theorem map {α : Type} {group : Option α} {f : α → Row}
    (h : ∀ a, (f a).slots.any Slot.isSegment = false) : SegmentsMoved (group.map f) := by
  cases group with
  | none => exact .none
  | some a => exact .general (h a)

theorem ite {p : Prop} [Decidable p] (h : SegmentsMoved x) (h' : SegmentsMoved y) :
    SegmentsMoved (if p then x else y) := by
  split
  · exact h
  · exact h'

end SegmentsMoved

namespace OpcodeMap

theorem segmentsMoved_dwordOnly (w : Width) (op : PlainOp) : SegmentsMoved (dwordOnly w op) :=
  .ite (.general rfl) .none

theorem segmentsMoved_arithmetic (r column : Nat) (w : Width) :
    SegmentsMoved (arithmetic r column w) := by
  unfold arithmetic
  dsimp only
  split
  all_goals first
    | exact .moves (.push ..)
    | exact .moves (.pop _ (by decide))
    | exact .general rfl
    | exact .none

theorem segmentsMoved_stack (r column : Nat) (w : Width) : SegmentsMoved (stack r column w) := by
  unfold stack
  split
  all_goals first
    | exact .general rfl
    | exact segmentsMoved_dwordOnly _ _
    | exact .none

theorem segmentsMoved_move (r column reg : Nat) (isRegister : Bool) (w : Width) :
    SegmentsMoved (move r column reg isRegister w) := by
  unfold move
  dsimp only
  split
  all_goals first
    | exact .moves (.store ..)
    | exact .moves .load
    | exact .general rfl
    | exact .ite (.general rfl) .none
    | exact segmentsMoved_dwordOnly _ _
    | exact .none

theorem segmentsMoved_control (r column reg : Nat) (w : Width) :
    SegmentsMoved (control r column reg w) := by
  unfold control
  dsimp only
  split
  all_goals first
    | exact .general rfl
    | exact .map fun _ => rfl
    | exact .ite (.general rfl) (.map fun _ => rfl)
    | exact .ite (.general rfl) .none
    | exact .ite (.map fun _ => rfl) .none
    | exact segmentsMoved_dwordOnly _ _
    | exact .none

theorem segmentsMoved_secondary (b reg : Nat) (w : Width) :
    SegmentsMoved (secondary b reg w) := by
  unfold secondary
  dsimp only
  split
  case h_1 => split <;> first | exact .general rfl | exact .none
  all_goals first
    | exact .moves (.push ..)
    | exact .moves (.pop _ (by decide))
    | exact .general rfl
    | exact .none

theorem segmentsMoved_primary (b reg : Nat) (isRegister : Bool) (w : Width) :
    SegmentsMoved (primary b reg isRegister w) :=
  .ite (segmentsMoved_arithmetic _ _ _) (.ite (segmentsMoved_stack _ _ _)
    (.ite (segmentsMoved_move _ _ _ _ _) (segmentsMoved_control _ _ _ _)))

end OpcodeMap

/-! ## Decoded instructions -/

theorem exists_mem_of_mapM {α β : Type} {f : α → Option β} {xs : List α} {ys : List β}
    (h : xs.mapM f = some ys) {y : β} (hy : y ∈ ys) : ∃ x ∈ xs, f x = some y := by
  induction xs generalizing ys with
  | nil =>
    cases h
    cases hy
  | cons x xs ih =>
    rw [List.mapM_cons] at h
    obtain ⟨z, hz, h⟩ := Option.bind_eq_some_iff.1 h
    obtain ⟨zs, hzs, h⟩ := Option.bind_eq_some_iff.1 h
    cases h
    rcases List.mem_cons.1 hy with rfl | hy
    · exact ⟨x, List.mem_cons_self, hz⟩
    · obtain ⟨a, ha, hfa⟩ := ih hzs hy
      exact ⟨a, List.mem_cons_of_mem x ha, hfa⟩

namespace Frame

variable {f : Frame} {row : Row} {field : List UInt8} {d : Decoded} {s : Segment}

/-- The rows that name a segment register move it. -/
theorem movesSegment_of_row (h : f.row = some row)
    (hsegment : row.slots.any Slot.isSegment = true) : row.MovesSegment := by
  cases hopcode : f.opcode with
  | primary b =>
    rw [Frame.row, hopcode] at h
    exact OpcodeMap.segmentsMoved_primary _ _ _ _ row (Opcode.primary_of_row h) hsegment
  | secondary b =>
    rw [Frame.row, hopcode] at h
    exact OpcodeMap.segmentsMoved_secondary _ _ _ row (Opcode.secondary_of_row h) hsegment

theorem isSegment_of_operand {slot : Slot}
    (h : f.operand field slot = some (.register (.segment s))) : slot.isSegment = true := by
  cases slot with
  | rm w =>
    obtain ⟨rm, -, hrm⟩ := Option.map_eq_some_iff.1 h
    cases rm <;> cases hrm
  | address =>
    obtain ⟨rm, -, hrm⟩ := Option.bind_eq_some_iff.1 h
    cases rm <;> cases hrm
  | fixed r =>
    cases h
    rfl
  | segment => rfl
  | _ => cases h

end Frame

namespace Reader

variable {α β : Type} {bytes rest : List UInt8}

theorem bind_eq_some {reader : Reader α} {next : α → Reader β} {b : β} :
    (reader >>= next) bytes = some (b, rest) ↔
      ∃ a middle, reader bytes = some (a, middle) ∧ next a middle = some (b, rest) := by
  simp only [bind_apply, Option.bind_eq_some_iff, Prod.exists]

theorem lift_eq_some {x : Option α} {a : α}
    (h : (liftM x : Reader α) bytes = some (a, rest)) : x = some a := by
  cases x with
  | none => cases h
  | some a' =>
    cases h
    rfl

end Reader

namespace Decoded

variable {d : Decoded} {s : Segment} {mode : Mode} {bytes rest : List UInt8}

theorem destinations_subset (d : Decoded) : d.destinations ⊆ d.operands := by
  unfold destinations
  split
  · exact List.Subset.refl _
  all_goals first | exact List.nil_subset _ | exact List.take_subset _ _

/-- An instruction with a segment register is read off a row that moves one. -/
theorem exists_row_of_decode (h : decode mode bytes = some (d, rest))
    (hs : .register (.segment s) ∈ d.operands) :
    ∃ (f : Frame) (row : Row) (field : List UInt8), row.MovesSegment ∧
      f.decodedAs field row = some d := by
  obtain ⟨f, _, -, h⟩ := Reader.bind_eq_some.1 h
  obtain ⟨row, _, hrow, h⟩ := Reader.bind_eq_some.1 h
  obtain ⟨field, _, -, h⟩ := Reader.bind_eq_some.1 h
  have hd := Reader.lift_eq_some h
  obtain ⟨operands, hoperands, hd'⟩ := Option.bind_eq_some_iff.1 hd
  cases hd'
  obtain ⟨slot, hslot, hoperand⟩ := exists_mem_of_mapM hoperands hs
  have hany := List.any_eq_true.2 ⟨slot, hslot, Frame.isSegment_of_operand hoperand⟩
  exact ⟨f, row, field, Frame.movesSegment_of_row (Reader.lift_eq_some hrow) hany, hd⟩

/-- Only moves, pushes and pops work on segment registers. -/
theorem operation_of_segment (h : decode mode bytes = some (d, rest))
    (hs : .register (.segment s) ∈ d.operands) :
    d.operation = .mov ∨ d.operation = .push ∨ d.operation = .pop := by
  obtain ⟨f, row, field, hrow, hd⟩ := exists_row_of_decode h hs
  obtain ⟨operands, -, hd⟩ := Option.bind_eq_some_iff.1 hd
  cases hd
  cases hrow with
  | store | load => exact .inl rfl
  | push => exact .inr (.inl rfl)
  | pop => exact .inr (.inr rfl)

/-- A segment register is written by a move, or by a pop unless it is `cs`. -/
theorem operation_of_destination (h : decode mode bytes = some (d, rest))
    (hs : .register (.segment s) ∈ d.destinations) :
    d.operation = .mov ∨ d.operation = .pop ∧ s ≠ .cs := by
  obtain ⟨f, row, field, hrow, hd⟩ := exists_row_of_decode h (d.destinations_subset hs)
  obtain ⟨operands, hoperands, hd⟩ := Option.bind_eq_some_iff.1 hd
  cases hd
  cases hrow with
  | store | load => exact .inl rfl
  | push => cases hs
  | pop _ hne =>
    cases hoperands
    cases List.mem_singleton.1 hs
    exact .inr ⟨rfl, hne⟩

end Decoded

/-! ## Instructions -/

namespace Instruction

variable {i : Instruction} {cx : Context} {s : Segment} {operands : List Operand} {b : List UInt8}

/-! ### Segment registers among the operands -/

theorem mem_uniformMeaning (operation : Mnemonic) (h : .register (.segment s) ∈ operands) :
    .register (.segment s) ∈ (uniformMeaning operation operands cx).operands :=
  List.mem_map.2 ⟨_, h, rfl⟩

theorem mem_mixedMeaning (operation : Mnemonic) (width : Operand → Width)
    (h : .register (.segment s) ∈ operands) :
    .register (.segment s) ∈ (mixedMeaning operation operands width cx).operands := by
  unfold mixedMeaning
  split
  · simp only [List.mem_cons, List.not_mem_nil, or_false] at h ⊢
    rcases h with rfl | rfl
    · exact .inl rfl
    · exact .inr rfl
  · exact mem_uniformMeaning operation h

theorem mem_memoryFirst (h : .register (.segment s) ∈ operands) :
    .register (.segment s) ∈ Operand.memoryFirst operands := by
  unfold Operand.memoryFirst
  split
  · simpa using h
  · exact h

theorem mem_exchangeMeaning (h : .register (.segment s) ∈ operands) :
    .register (.segment s) ∈ (exchangeMeaning operands cx).operands := by
  unfold exchangeMeaning
  split
  · simp at h
  · exact mem_uniformMeaning .xchg (mem_memoryFirst h)

theorem mem_branchMeaning (operation : Mnemonic) (length : Nat)
    (h : .register (.segment s) ∈ operands) :
    .register (.segment s) ∈ (branchMeaning operation operands cx length).operands := by
  unfold branchMeaning
  split
  · simp at h
  · exact mem_uniformMeaning operation h

theorem mem_outputMeaning (h : .register (.segment s) ∈ operands) :
    .register (.segment s) ∈ (outputMeaning operands cx).operands := by
  unfold outputMeaning
  split
  · simp only [List.mem_cons, List.not_mem_nil, or_false] at h ⊢
    rcases h with rfl | rfl
    · exact .inl rfl
    · exact .inr rfl
  · exact mem_uniformMeaning .output h

/-- A segment register among the operands is an operand of what the instruction means, also where
that has the operands in another order. -/
theorem mem_operands_meaning (hok : i.encode cx = .ok b) (hmov : i.mnemonic ≠ .mov)
    (h : .register (.segment s) ∈ i.operands) (length : Nat) :
    .register (.segment s) ∈ (i.meaning cx length).operands := by
  obtain ⟨mnemonic, operands⟩ := i
  cases mnemonic with
  | mov => exact absurd rfl hmov
  | movzx | movsx | shift _ | input => exact mem_mixedMeaning _ _ h
  | lea | table _ | ret | int => exact List.mem_map.2 ⟨_, h, rfl⟩
  | xchg => exact mem_exchangeMeaning h
  | test => exact mem_uniformMeaning _ (mem_memoryFirst h)
  | call | jmp | jcc _ => exact mem_branchMeaning _ _ h
  | output => exact mem_outputMeaning h
  | plain op =>
    cases operands with
    | nil => cases h
    | cons _ _ => cases hok
  | _ => exact mem_uniformMeaning _ h

theorem mnemonic_of_segment (hok : i.encode cx = .ok b) (h : .register (.segment s) ∈ i.operands) :
    i.mnemonic = .mov ∨ i.mnemonic = .push ∨ i.mnemonic = .pop := by
  by_cases hmov : i.mnemonic = .mov
  · exact .inl hmov
  · have hmeaning := mem_operands_meaning hok hmov h b.length
    have hoperation := Decoded.operation_of_segment (takes_meaning hok []) hmeaning
    rcases operation_meaning i cx b.length with hsame | ⟨w, w', rfl⟩
    · rwa [hsame] at hoperation
    · simp at h

/-! ### Moves and pops -/

/-- A move writes a segment register that it has as its first operand. -/
theorem mem_destinations_moveMeaning :
    .register (.segment s) ∈ (moveMeaning operands cx).destinations →
      operands.head? = some (.register (.segment s)) := by
  unfold moveMeaning
  intro h
  split at h
  · cases List.mem_singleton.1 h
    rfl
  · cases List.mem_singleton.1 h
  · cases operands with
    | nil => cases h
    | cons op rest =>
      cases op with
      | register r =>
        cases List.mem_singleton.1 h
        rfl
      | _ => cases List.mem_singleton.1 h

end Instruction

/-- The memory operands that have an encoding: an override must be a segment register, the registers
must form an address, and its displacement must fit. -/
structure Memory.Encodable (m : Memory) (cx : Context) : Prop where
  segment : ∀ r, m.segment = some r → r.isSegment = true
  addressable : ¬m.Unaddressable cx.mode
  holds : ∀ size, m.addressSize cx.mode = .ok size →
    size.width.Holds (m.displacementValue cx.symbol).value

/-- An opcode takes the memory operands that have an encoding. -/
theorem Encoding.exists_onMemory_iff {m : Memory} {cx : Context} (width : Option Width)
    (opcode : Opcode) (reg : Nat) :
    (∃ e, onMemory cx width opcode reg m = .ok e) ↔ m.Encodable cx := by
  constructor
  · rintro ⟨e, he⟩
    obtain ⟨segment, hsegment, he⟩ := bind_eq_ok.1 he
    obtain ⟨size, hsize, he⟩ := bind_eq_ok.1 he
    obtain ⟨a, ha, -⟩ := bind_eq_ok.1 he
    have haddressable : ¬m.Unaddressable cx.mode := by
      intro hbad
      obtain ⟨text, herror⟩ := Memory.unsupported_of_unaddressable hbad cx.symbol reg
      rw [ha] at herror
      cases herror
    refine ⟨fun r hr => ?_, haddressable, fun size' hsize' => ?_⟩
    · rw [← Memory.segmentOverride_eq_ok hsegment] at hr
      obtain ⟨s, -, rfl⟩ := Option.map_eq_some_iff.1 hr
      rfl
    · obtain ⟨size'', hsize'', -, hoverflow⟩ :=
        Memory.addressing_of_addressable haddressable cx.symbol reg
      cases hsize'.symm.trans hsize''
      by_contra hholds
      rw [hoverflow hholds] at ha
      cases ha
  · rintro ⟨hsegment, haddressable, hholds⟩
    obtain ⟨size, hsize, hok, -⟩ := Memory.addressing_of_addressable haddressable cx.symbol reg
    obtain ⟨a, ha⟩ := hok (hholds size hsize)
    -- Every segment register has an override, and no other register is given as the segment.
    have hoverride : ∃ segment, m.segmentOverride = .ok segment := by
      unfold Memory.segmentOverride
      split
      case h_1 => exact ⟨_, rfl⟩
      case h_2 => exact ⟨_, rfl⟩
      case h_3 r hnot hr =>
        cases r with
        | segment s => exact absurd rfl (hnot s)
        | general w n => cases hsegment _ hr
    obtain ⟨segment, hsegment⟩ := hoverride
    exact ⟨{ segment, addressSize := size, width, opcode, addressing := a }, by
      rw [onMemory, hsegment, hsize, ha]
      rfl⟩

namespace Instruction

variable {i : Instruction} {cx : Context} {b : List UInt8}

/-- What a move loads a segment register from: a register of more than a byte, and any memory
operand that has an encoding. -/
def SegmentSource (cx : Context) : Operand → Prop
  | .register (.general w _) => w ≠ .byte
  | .memory m => m.Encodable cx
  | _ => False

theorem exists_encode_iff :
    (∃ b, i.encode cx = .ok b) ↔ ∃ e, i.encoding cx = .ok e := by
  rw [encode]
  cases i.encoding cx with
  | ok e => exact ⟨fun _ => ⟨e, rfl⟩, fun _ => ⟨_, rfl⟩⟩
  | error err => simp

theorem exists_encode_mov_segment_iff (s : Segment) (src : Operand) :
    (∃ b, encode ⟨.mov, [.register (.segment s), src]⟩ cx = .ok b) ↔ SegmentSource cx src := by
  rw [exists_encode_iff]
  have hrefused {err : AssemblyError} : ¬∃ e : Encoding, Except.error err = .ok e := nofun
  cases src with
  | register r =>
    cases r with
    | general w n =>
      cases w with
      | byte => exact iff_of_false hrefused fun h => h rfl
      | _ => exact iff_of_true ⟨_, rfl⟩ nofun
    | segment s' => exact iff_of_false hrefused id
  | memory m => exact Encoding.exists_onMemory_iff none (.primary 0x8E) s.code
  | immediate v => exact iff_of_false hrefused id
  | label name => exact iff_of_false hrefused id

theorem encode_pop_cs (rest : List Operand) :
    ∃ detail, encode ⟨.pop, .register .cs :: rest⟩ cx = .error (.invalidOperands "pop" detail) := by
  cases rest with
  | nil => exact ⟨_, rfl⟩
  | cons op rest => exact ⟨_, rfl⟩

/-- **Moves to `cs`, and they alone, write it.** What is encoded writes a segment register if it is
a move or a pop with the register as its first operand, and pops of `cs` are refused; no other
operation but a push has a segment register as its first operand. A move to `cs` is encoded from
whatever a segment register can be loaded from. -/
theorem code_segment_destination_iff (i : Instruction) (cx : Context) :
    (∀ b, i.encode cx = .ok b →
      (∀ rest, decode cx.mode (b ++ rest) = some (i.meaning cx b.length, rest)) ∧
      (.register .cs ∈ (i.meaning cx b.length).destinations ↔
        i.mnemonic = .mov ∧ i.operands.head? = some (.register .cs)) ∧
      ∀ s, i.operands.head? = some (.register (.segment s)) →
        i.mnemonic = .mov ∨ i.mnemonic = .push ∨ i.mnemonic = .pop) ∧
    (∀ rest, i = ⟨.pop, .register .cs :: rest⟩ →
      ∃ detail, i.encode cx = .error (.invalidOperands "pop" detail)) ∧
    ∀ src, i = ⟨.mov, [.register .cs, src]⟩ →
      ((∃ b, i.encode cx = .ok b) ↔ SegmentSource cx src) := by
  refine ⟨fun b hok => ⟨takes_meaning hok, ⟨fun h => ?_, ?_⟩, fun s hs => ?_⟩, ?_, ?_⟩
  · have hmov : i.mnemonic = .mov := by
      -- What writes `cs` is decoded as a move, which no exchange is.
      rcases Decoded.operation_of_destination (takes_meaning hok []) h with hmov | ⟨-, hne⟩
      · rcases operation_meaning i cx b.length with hsame | ⟨w, w', rfl⟩
        · rw [← hsame, hmov]
        · cases w <;> cases hmov
      · exact absurd rfl hne
    obtain ⟨mnemonic, operands⟩ := i
    cases hmov
    exact ⟨rfl, mem_destinations_moveMeaning h⟩
  · rintro ⟨hmov, hhead⟩
    obtain ⟨mnemonic, operands⟩ := i
    cases hmov
    rcases operands with _ | ⟨dst, _ | ⟨src, _ | ⟨third, rest⟩⟩⟩
    · cases hhead
    · cases hhead
      cases hok
    · cases hhead
      exact List.mem_singleton.2 rfl
    · cases hhead
      cases src <;> cases hok
  · exact mnemonic_of_segment hok (List.mem_of_mem_head? hs)
  · rintro rest rfl
    exact encode_pop_cs rest
  · rintro src rfl
    exact exists_encode_mov_segment_iff .cs src

/-- The code segment is loaded from `ax`, and cannot be popped. -/
theorem code_segment_destination_iff_ax :
    encode ⟨.mov, [.register .cs, .register .ax]⟩ {} = .ok [0x8E, 0xC8] ∧
      .register .cs ∈ (meaning ⟨.mov, [.register .cs, .register .ax]⟩ {} 2).destinations ∧
      ∃ detail, encode ⟨.pop, [.register .cs]⟩ {} = .error (.invalidOperands "pop" detail) :=
  ⟨rfl, ((code_segment_destination_iff _ _).1 [0x8E, 0xC8] rfl).2.1.2 ⟨rfl, rfl⟩,
    (code_segment_destination_iff ⟨.pop, [.register .cs]⟩ {}).2.1 [] rfl⟩

/-- The encoder writes an instruction that loads `cs`. -/
theorem code_segment_loaded :
    ¬∀ (i : Instruction) (cx : Context) (b : List UInt8), i.encode cx = .ok b →
      ∀ d rest, decode cx.mode b = some (d, rest) → .register .cs ∉ d.destinations := by
  intro h
  exact h ⟨.mov, [.register .cs, .register .ax]⟩ {} [0x8E, 0xC8] rfl
    ⟨.mov, some .word, [.register .cs, .register .ax]⟩ [] rfl (by decide)

end Instruction

end BootImage
